import Mathlib.Data.List.Nodup
import YamlServer.Proofs.Abreast
import YamlServer.Proofs.Outcome
import YamlServer.Yaml.Object

/-!
# Objects of plain documents

In a document of plain data no mapping is merged into another one, so that its records stay what
they are while objects are made. What is made of a node then depends on the node alone, and not on
when it is made: a scalar is its value, and a collection the cell of its number, which is filled
with what is made of its parts. Every collection that is made waits until it is filled, each one
once, and there is time to fill all of them.

* `Yaml.Objects.loads_ofNode`: the objects of a plain document do.
-/

namespace YamlServer
namespace Yaml

open Outcome

/-- The tags of plain data: five for scalars, and those of lists and of maps. -/
def plainTags : List String :=
  [Tag.null, Tag.bool, Tag.int, Tag.float, Tag.str, Tag.seq, Tag.map]

/-! ## Plain records -/

namespace Records

/-- All nodes are tagged as plain data. -/
def Plain (rs : Records) : Prop :=
  ∀ e ∈ rs, e.2.tag ∈ plainTags

variable {rs : Records}

/-- A number without a node has no tag at all. -/
theorem Plain.tag_get (h : rs.Plain) (id : Nat) : (rs.get id).tag ∈ "" :: plainTags := by
  unfold Records.get
  cases hlookup : rs.lookup id with
  | none => exact List.mem_cons_self
  | some r =>
    rcases List.lookup_eq_some_iff.1 hlookup with ⟨before, rest, hrs, -⟩
    exact List.mem_cons_of_mem _ (h (id, r) (by simp [hrs]))

theorem Plain.tag_ne (h : rs.Plain) (id : Nat) :
    (rs.get id).tag ≠ Tag.merge ∧ (rs.get id).tag ≠ Tag.value ∧
      (rs.get id).tag ≠ Tag.standard "binary" ∧ (rs.get id).tag ≠ Tag.timestamp := by
  have hall : ∀ tag ∈ "" :: plainTags, tag ≠ Tag.merge ∧ tag ≠ Tag.value ∧
      tag ≠ Tag.standard "binary" ∧ tag ≠ Tag.timestamp := by decide +kernel
  exact hall _ (h.tag_get id)

/-- There is nothing to flatten without merge keys. -/
theorem Plain.flattenFrom_eq (h : rs.Plain) (fuel id index : Nat) :
    flattenFrom fuel id index [] rs = .ok rs := by
  induction fuel generalizing index with
  | zero => rfl
  | succ fuel ih =>
    rw [flattenFrom]
    split
    · rfl
    · rename_i key value _
      rcases h.tag_ne key with ⟨hmerge, hvalue, -⟩
      simpa [hmerge, hvalue] using ih (index + 1)

theorem Plain.flatten_eq (h : rs.Plain) (id : Nat) : rs.flatten id = .ok rs :=
  h.flattenFrom_eq _ id 0

end Records

/-! ## What is made of a node -/

/-- What is made of a node: the value of a scalar, or a cell. -/
def itemAt (rs : Records) (id : Nat) : Except ObjectFailure Item :=
  match atomOf? rs id with
  | some value => value.map Item.atom
  | none =>
    match CellKind.ofTag? (rs.get id).tag with
    | some _ => .ok (.cell id)
    | none => .error (rs.fault (.unknownTag (rs.get id).tag) id)

theorem kind_of_plain {tag : String} (h : tag ∈ "" :: plainTags) :
    CellKind.ofTag? tag = none ∨ CellKind.ofTag? tag = some .list ∨
      CellKind.ofTag? tag = some .map := by
  have hall : ∀ tag ∈ "" :: plainTags, CellKind.ofTag? tag = none ∨
      CellKind.ofTag? tag = some .list ∨ CellKind.ofTag? tag = some .map := by decide +kernel
  exact hall tag h

variable {rs : Records} {id : Nat}

/-- Only a scalar has a text, where no key stands for the value of its mapping. -/
theorem body_of_scalarText {fuel : Nat} {content : String} (hplain : rs.Plain)
    (h : scalarText rs fuel id = .ok content) : (rs.get id).body = .scalar content := by
  cases fuel with
  | zero => cases h
  | succ fuel =>
    rw [scalarText] at h
    split at h
    · rename_i hbody
      cases h
      exact hbody
    · cases h
    · split at h
      · rename_i key value hfind
        have htag := List.find?_some hfind
        exact absurd (beq_iff_eq.1 htag) (hplain.tag_ne key).2.1
      · cases h

/-- Whether a tag is that of a plain scalar does not depend on the text. -/
theorem isSome_plain? (tag content content' : String) :
    (Scalar.plain? tag content).isSome = (Scalar.plain? tag content').isSome := by
  simp only [Scalar.plain?, apply_ite Option.isSome, Option.isSome_some, Option.isSome_none]

/-- A value is made of a scalar only, and is what its text stands for under its tag. -/
theorem scalar_of_itemAt {v : Value} (hplain : rs.Plain) (h : itemAt rs id = .ok (.atom v)) :
    ∃ content, (rs.get id).body = .scalar content ∧
      Scalar.plain? (rs.get id).tag content = some (.ok v) := by
  rcases hplain.tag_ne id with ⟨-, -, hbinary, htimestamp⟩
  unfold itemAt at h
  split at h
  · rename_i value hatom
    rcases map_eq_ok.1 h with ⟨v', rfl, hv'⟩
    cases hv'
    unfold atomOf? at hatom
    simp only [beq_iff_eq, hbinary, htimestamp, if_false] at hatom
    split at hatom
    · rename_i htag
      rcases bind_eq_ok.1 (Option.some.inj hatom) with ⟨content, htext, hvalue⟩
      refine ⟨content, body_of_scalarText hplain htext, ?_⟩
      rw [isSome_plain? _ _ content] at htag
      split at hvalue
      · rename_i v' hplain?
        cases hvalue
        exact hplain?
      · cases hvalue
      · rename_i hnone
        rw [hnone] at htag
        cases htag
    · cases hatom
  · split at h
    · cases h
    · cases h

/-- A collection is known by its own number, and has a node. -/
theorem cell_of_itemAt {cell : Nat} (h : itemAt rs id = .ok (.cell cell)) :
    cell = id ∧ id ∈ rs.map (·.1) := by
  unfold itemAt at h
  split at h
  · rcases map_eq_ok.1 h with ⟨v, -, hv⟩
    cases hv
  · split at h
    · rename_i kind hkind
      cases h
      refine ⟨rfl, ?_⟩
      by_contra hmem
      have hnone : rs.lookup id = none := by
        rw [List.lookup_eq_none_iff]
        intro e he
        have hne : id ≠ e.1 := fun heq => hmem (heq ▸ List.mem_map_of_mem he)
        simpa using hne
      have hempty : CellKind.ofTag? "" = none := by decide +kernel
      rw [Records.get, hnone] at hkind
      exact absurd (hempty.symm.trans hkind) (by simp)
    · cases h

/-- The content of a collection, by what has been made of its parts. -/
inductive Content (rs : Records) (made : Nat → Option Item) (id : Nat) : Cell → Prop where
  | list {parts : List Nat} {items : List Item} : (rs.get id).body = .sequence parts →
      List.Forall₂ (fun p i => made p = some i) parts items → Content rs made id (.list items)
  | map {entries : List (Nat × Nat)} {pairs : List (Value × Item)} :
      (rs.get id).body = .mapping entries →
      List.Forall₂ (fun e p => made e.1 = some (.atom p.1) ∧ made e.2 = some p.2) entries pairs →
      Content rs made id (.map (pairs.foldl (fun acc p => Making.putItem p.1 p.2 acc) []))

theorem Content.mono {made made' : Nat → Option Item} {c : Cell} (h : Content rs made id c)
    (hmade : ∀ p i, made p = some i → made' p = some i) : Content rs made' id c := by
  cases h with
  | list hbody hparts => exact .list hbody (hparts.imp hmade)
  | map hbody hparts =>
    refine .map hbody (hparts.imp ?_)
    rintro e p ⟨hkey, hvalue⟩
    exact ⟨hmade _ _ hkey, hmade _ _ hvalue⟩

/-! ## Making objects -/

namespace Making

/-- The collections that have been made: those being filled, the waiting ones and the filled
ones. -/
def collections (pending : List Nat) (m : Making) : List Nat :=
  pending ++ m.waiting ++ m.cells.map (·.1)

/-- What holds while objects are made, the collections in `pending` being filled. -/
structure Sound (rs : Records) (pending : List Nat) (m : Making) : Prop where
  records : m.records = rs
  made : ∀ id i, m.made.lookup id = some i → itemAt rs id = .ok i
  settled : ∀ id, m.made.lookup id = some (.cell id) ↔ id ∈ m.collections pending
  once : (m.collections pending).Nodup
  filled : ∀ id c, (id, c) ∈ m.cells → Content rs (m.made.lookup ·) id c

/-- What was made stays, and no collection is filled. -/
structure Grows (m m' : Making) : Prop where
  made : ∀ id i, m.made.lookup id = some i → m'.made.lookup id = some i
  cells : m'.cells = m.cells

theorem Grows.refl (m : Making) : Grows m m :=
  ⟨fun _ _ h => h, rfl⟩

theorem Grows.trans {m m' m'' : Making} (h : Grows m m') (h' : Grows m' m'') : Grows m m'' :=
  ⟨fun id i hid => h'.made id i (h.made id i hid), h'.cells.trans h.cells⟩

variable {pending : List Nat} {m m' : Making}

/-- Something new is made; what was made before stays. -/
theorem lookup_cons_of_new {made : List (Nat × Item)} {i : Item} (hnew : made.lookup id = none)
    {id' : Nat} {i' : Item} (h : made.lookup id' = some i') :
    ((id, i) :: made).lookup id' = some i' := by
  have hne : id' ≠ id := by
    rintro rfl
    rw [hnew] at h
    cases h
  rw [List.lookup_cons, beq_false_of_ne hne]
  exact h

theorem lookup_cons_cases {made : List (Nat × Item)} {i i' : Item} {id' : Nat}
    (h : ((id, i) :: made).lookup id' = some i') :
    (id' = id ∧ i' = i) ∨ (id' ≠ id ∧ made.lookup id' = some i') := by
  rw [List.lookup_cons] at h
  by_cases hid : id' = id
  · rw [hid, beq_self_eq_true] at h
    exact Or.inl ⟨hid, (Option.some.inj h).symm⟩
  · rw [beq_false_of_ne hid] at h
    exact Or.inr ⟨hid, h⟩

theorem Sound.add_atom {v : Value} (h : Sound rs pending m) (hnew : m.made.lookup id = none)
    (hitem : itemAt rs id = .ok (.atom v)) :
    Sound rs pending { m with made := (id, .atom v) :: m.made } := by
  refine ⟨h.records, ?_, ?_, h.once, ?_⟩
  · intro id' i' hlookup
    rcases lookup_cons_cases hlookup with ⟨rfl, rfl⟩ | ⟨-, hold⟩
    · exact hitem
    · exact h.made id' i' hold
  · intro id'
    refine Iff.trans ?_ (h.settled id')
    constructor
    · intro hlookup
      rcases lookup_cons_cases hlookup with ⟨-, hcell⟩ | ⟨-, hold⟩
      · cases hcell
      · exact hold
    · exact lookup_cons_of_new hnew
  · intro id' c hc
    exact (h.filled id' c hc).mono fun p i => lookup_cons_of_new hnew

theorem Sound.add_cell (h : Sound rs pending m) (hnew : m.made.lookup id = none)
    (hitem : itemAt rs id = .ok (.cell id)) :
    Sound rs pending
      { m with made := (id, .cell id) :: m.made, waiting := m.waiting ++ [id] } := by
  have hperm : (m.collections pending ++ [id]).Perm
      (collections pending { m with waiting := m.waiting ++ [id] }) := by
    simp only [collections, List.append_assoc]
    refine List.Perm.append_left _ (List.Perm.append_left _ ?_)
    exact List.perm_append_comm
  have hfresh : id ∉ m.collections pending := by
    intro hmem
    rw [(h.settled id).2 hmem] at hnew
    cases hnew
  refine ⟨h.records, ?_, ?_, ?_, ?_⟩
  · intro id' i' hlookup
    rcases lookup_cons_cases hlookup with ⟨rfl, rfl⟩ | ⟨-, hold⟩
    · exact hitem
    · exact h.made id' i' hold
  · intro id'
    refine Iff.trans ?_ (hperm.mem_iff (a := id'))
    rw [List.mem_append, List.mem_singleton, ← h.settled id']
    constructor
    · intro hlookup
      rcases lookup_cons_cases hlookup with ⟨hid, -⟩ | ⟨-, hold⟩
      · exact Or.inr hid
      · exact Or.inl hold
    · rintro (hold | rfl)
      · exact lookup_cons_of_new hnew hold
      · simp
  · refine hperm.nodup ?_
    exact List.Nodup.append h.once (List.nodup_singleton id) (by simpa using hfresh)
  · intro id' c hc
    exact (h.filled id' c hc).mono fun p i => lookup_cons_of_new hnew

/-- Making the object of a node gives what is made of it, once and for all. -/
theorem item_spec {i : Item} (h : Sound rs pending m) (hrun : item id m = .ok (i, m')) :
    Sound rs pending m' ∧ Grows m m' ∧ m'.made.lookup id = some i := by
  unfold item at hrun
  split at hrun
  · rename_i hmade
    cases hrun
    exact ⟨h, Grows.refl m, hmade⟩
  · rename_i hnew
    obtain rfl := h.records
    split at hrun
    · rename_i value hatom
      rcases bind_eq_ok.1 hrun with ⟨v, rfl, hlast⟩
      cases hlast
      have hitem : itemAt m.records id = .ok (.atom v) := by
        rw [itemAt, hatom]
        rfl
      exact ⟨h.add_atom hnew hitem, ⟨fun _ _ => lookup_cons_of_new hnew, rfl⟩, by simp⟩
    · rename_i hatom
      dsimp only at hrun
      split at hrun
      · rename_i kind hkind
        cases hrun
        have hitem : itemAt m.records id = .ok (.cell id) := by
          rw [itemAt, hatom, hkind]
        exact ⟨h.add_cell hnew hitem, ⟨fun _ _ => lookup_cons_of_new hnew, rfl⟩, by simp⟩
      · cases hrun

theorem items_spec {parts : List Nat} {made : List Item} (h : Sound rs pending m)
    (hrun : items parts m = .ok (made, m')) :
    Sound rs pending m' ∧ Grows m m' ∧
      List.Forall₂ (fun p i => m'.made.lookup p = some i) parts made := by
  induction parts generalizing m made with
  | nil =>
    cases hrun
    exact ⟨h, Grows.refl _, .nil⟩
  | cons p rest ih =>
    rcases bind_eq_ok.1 hrun with ⟨⟨i, m₁⟩, hfirst, hrest⟩
    rcases bind_eq_ok.1 hrest with ⟨⟨more, m₂⟩, hmore, hlast⟩
    cases hlast
    rcases item_spec h hfirst with ⟨hsound, hgrows, hlookup⟩
    rcases ih hsound hmore with ⟨hsound', hgrows', hothers⟩
    exact ⟨hsound', hgrows.trans hgrows', .cons (hgrows'.made p i hlookup) hothers⟩

theorem mapEntries_spec {entries : List (Nat × Nat)} {acc made : List (Value × Item)}
    (h : Sound rs pending m) (hrun : mapEntries acc entries m = .ok (made, m')) :
    Sound rs pending m' ∧ Grows m m' ∧ ∃ pairs : List (Value × Item),
      List.Forall₂ (fun e p => m'.made.lookup e.1 = some (.atom p.1) ∧
        m'.made.lookup e.2 = some p.2) entries pairs ∧
      made = pairs.foldl (fun acc p => putItem p.1 p.2 acc) acc := by
  induction entries generalizing m acc with
  | nil =>
    cases hrun
    exact ⟨h, Grows.refl _, [], .nil, rfl⟩
  | cons e rest ih =>
    rcases bind_eq_ok.1 hrun with ⟨⟨k, m₁⟩, hkey, hrest⟩
    rcases item_spec h hkey with ⟨hsound, hgrows, hlookup⟩
    cases k with
    | cell id => cases hrest
    | atom k =>
      rcases bind_eq_ok.1 hrest with ⟨⟨v, m₂⟩, hvalue, hmore⟩
      rcases item_spec hsound hvalue with ⟨hsound', hgrows', hlookup'⟩
      rcases ih hsound' hmore with ⟨hsound'', hgrows'', pairs, hpairs, hmade⟩
      refine ⟨hsound'', (hgrows.trans hgrows').trans hgrows'', (k, v) :: pairs, ?_, hmade⟩
      have hatom := hgrows''.made _ _ (hgrows'.made _ _ hlookup)
      exact .cons ⟨hatom, hgrows''.made _ _ hlookup'⟩ hpairs

theorem mappingOf_spec {made : List (Value × Item)} (hplain : rs.Plain) (h : Sound rs pending m)
    (hrun : mappingOf id m = .ok (made, m')) :
    Sound rs pending m' ∧ Grows m m' ∧ Content rs (m'.made.lookup ·) id (.map made) := by
  obtain rfl := h.records
  unfold mappingOf at hrun
  split at hrun
  · rename_i entries hbody
    rw [hplain.flatten_eq id] at hrun
    have hentries : m.records.entries id = entries := by rw [Records.entries, hbody]
    rcases mapEntries_spec h hrun with ⟨hsound, hgrows, pairs, hpairs, rfl⟩
    rw [hentries] at hpairs
    exact ⟨hsound, hgrows, .map hbody hpairs⟩
  · cases hrun

/-- The content of a collection is what is made of its parts. -/
theorem content_spec {c : Cell} (hplain : rs.Plain) (h : Sound rs pending m)
    (hrun : content id m = .ok (c, m')) :
    Sound rs pending m' ∧ Grows m m' ∧ Content rs (m'.made.lookup ·) id c := by
  have hkinds := kind_of_plain (hplain.tag_get id)
  obtain rfl := h.records
  unfold content at hrun
  dsimp only at hrun
  -- Plain data has lists and maps only; the other kinds of collections are excluded by their tags.
  split at hrun
  · rcases bind_eq_ok.1 hrun with ⟨⟨made, m₁⟩, hmade, hlast⟩
    cases hlast
    exact mappingOf_spec hplain h hmade
  · rename_i hset
    simp [hset] at hkinds
  · rename_i hordered _
    simp [hordered] at hkinds
  · rename_i hordered _
    simp [hordered] at hkinds
  · rename_i hpairs _
    simp [hpairs] at hkinds
  · rename_i hpairs _
    simp [hpairs] at hkinds
  · rename_i hbody _ _ _ _
    rcases bind_eq_ok.1 hrun with ⟨⟨made, m₁⟩, hmade, hlast⟩
    cases hlast
    rcases items_spec h hmade with ⟨hsound, hgrows, hparts⟩
    exact ⟨hsound, hgrows, .list hbody hparts⟩
  · cases hrun

theorem Sound.fill {c : Cell} (h : Sound rs [id] m) (hcontent : Content rs (m.made.lookup ·) id c) :
    Sound rs [] { m with cells := m.cells ++ [(id, c)] } := by
  have hperm : (m.collections [id]).Perm
      (collections [] { m with cells := m.cells ++ [(id, c)] }) := by
    simp only [collections, List.nil_append, List.map_append, List.map_cons, List.map_nil,
      List.append_assoc]
    refine List.perm_append_comm.trans ?_
    simp only [List.append_assoc]
    exact List.Perm.refl _
  refine ⟨h.records, h.made, ?_, hperm.nodup h.once, ?_⟩
  · intro id'
    exact (h.settled id').trans hperm.mem_iff
  · intro id' c' hc'
    rcases List.mem_append.1 hc' with hc' | hc'
    · exact h.filled id' c' hc'
    · rcases List.mem_singleton.1 hc' with heq
      cases heq
      exact hcontent

/-- There are no more collections than nodes. -/
theorem Sound.length_collections_le (h : Sound rs pending m) :
    (m.collections pending).length ≤ rs.length := by
  have hsub : m.collections pending ⊆ rs.map (·.1) := by
    intro id hid
    exact (cell_of_itemAt (h.made id _ ((h.settled id).2 hid))).2
  simpa using List.Nodup.length_le_of_subset h.once hsub

/-- All collections are filled in the end: each step fills one, and there are enough steps. -/
theorem fill_spec {fuel : Nat} (hplain : rs.Plain) (h : Sound rs [] m)
    (hfuel : rs.length < fuel + m.cells.length) (hrun : Making.fill fuel m = .ok m') :
    Sound rs [] m' ∧ m'.waiting = [] ∧
      ∀ id i, m.made.lookup id = some i → m'.made.lookup id = some i := by
  induction fuel generalizing m with
  | zero =>
    have hle := h.length_collections_le
    simp only [collections, List.length_append, List.length_map] at hle
    omega
  | succ fuel ih =>
    rw [Making.fill] at hrun
    split at hrun
    · rename_i hwaiting
      cases hrun
      exact ⟨h, hwaiting, fun _ _ hid => hid⟩
    · rename_i id rest hwaiting
      rcases bind_eq_ok.1 hrun with ⟨⟨c, m₁⟩, hcontent, hrest⟩
      -- The first one in the row is taken out of it and is being filled.
      have hpending : Sound rs [id] { m with waiting := rest } := by
        have hsame : collections [id] { m with waiting := rest } = m.collections [] := by
          simp [collections, hwaiting]
        exact ⟨h.records, h.made, hsame ▸ h.settled, hsame ▸ h.once, h.filled⟩
      rcases content_spec hplain hpending hcontent with ⟨hsound, hgrows, hc⟩
      have hlength : (m₁.cells ++ [(id, c)]).length = m.cells.length + 1 := by
        rw [hgrows.cells, List.length_append]
        rfl
      rcases ih (hsound.fill hc) (by rw [hlength]; omega) hrest with ⟨hend, hempty, hmade⟩
      exact ⟨hend, hempty, fun id' i hid => hmade id' i (hgrows.made id' i hid)⟩

end Making

/-! ## Documents -/

namespace Objects

/-- Objects that hold what is made of nodes: each item is that of its node, and the cell of each
collection holds what is made of its parts. -/
structure Loads (rs : Records) (made : Nat → Option Item) (o : Objects) : Prop where
  item : ∀ {id i}, made id = some i → itemAt rs id = .ok i
  cell : ∀ {id}, made id = some (.cell id) → ∃ c, o.cell? id = some c ∧ Content rs made id c

/-- The objects of a plain document hold what is made of its nodes. -/
theorem loads_ofNode {root : Node} {o : Objects} (hplain : (Records.ofNode root).Plain)
    (h : ofNode root = .ok o) :
    ∃ made : Nat → Option Item, made root.id = some o.root ∧
      Loads (Records.ofNode root) made o := by
  rcases bind_eq_ok.1 h with ⟨⟨i, m⟩, hitem, hrest⟩
  rcases bind_eq_ok.1 hrest with ⟨m', hfill, hlast⟩
  cases hlast
  have hstart : Making.Sound (Records.ofNode root) [] ⟨Records.ofNode root, [], [], []⟩ := by
    refine ⟨rfl, ?_, ?_, List.nodup_nil, ?_⟩
    · intro id i hid
      cases hid
    · intro id
      simp [Making.collections]
    · intro id c hc
      cases hc
  rcases Making.item_spec hstart hitem with ⟨hsound, hgrows, hroot⟩
  have hfuel :
      (Records.ofNode root).length < (Records.ofNode root).length + 1 + m.cells.length := by
    omega
  rcases Making.fill_spec hplain hsound hfuel hfill with ⟨hend, hempty, hmade⟩
  refine ⟨(m'.made.lookup ·), hmade _ _ hroot, fun hid => hend.made _ _ hid, ?_⟩
  intro id hid
  -- Nothing waits any more, so the collection has been filled.
  have hmem := (hend.settled id).1 hid
  rw [Making.collections, hempty, List.nil_append, List.nil_append] at hmem
  cases hlookup : m'.cells.lookup id with
  | none =>
    rcases List.mem_map.1 hmem with ⟨e, he, rfl⟩
    have hne := List.lookup_eq_none_iff.1 hlookup e he
    simp at hne
  | some c =>
    rcases List.lookup_eq_some_iff.1 hlookup with ⟨before, rest, hcells, -⟩
    exact ⟨c, hlookup, hend.filled id c (by simp [hcells])⟩

end Objects
end Yaml
end YamlServer
