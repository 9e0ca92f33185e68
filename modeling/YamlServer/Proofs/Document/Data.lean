import Mathlib.Logic.Relation
import YamlServer.Proofs.Document.Reading
import YamlServer.Proofs.Yaml.Loading
import YamlServer.Proofs.Yaml.Simple
import YamlServer.Tree.Data

/-!
# Two ways to the data of a document

The data of a document can be read off its tree, where an alias is a leaf that is followed, or be
made of its nodes as objects, where an alias is the object it names. Both give the same value for a
document of plain data in which no alias stands inside the collection it names.

Reading the tree keeps a list of the nodes it is in. Each of them leads to the node that is being
read, so that meeting one of them again would be a cycle; and they are different nodes, which is why
neither the steps of the reading nor the depth of the objects run out.

* `Tree.dataFrom_eq_expand`: reading a node is expanding its object.
* `DocumentSet.data_of_parse`: the data of a text in both ways.
-/

namespace YamlServer

open Yaml Outcome

namespace Yaml.Node

/-! ## Cycles -/

/-- The numbers of the nodes that reading a node goes on with: its parts, or what it names. -/
def onward : Node → List Nat
  | .scalar .. => []
  | .sequence _ _ _ items => items.map id
  | .mapping _ _ _ entries => entries.flatMap fun e => [e.1.id, e.2.id]
  | .alias _ _ _ target => [target]

/-- Reading the node of a number goes on with that of another one. -/
def Leads (root : Node) (i j : Nat) : Prop :=
  ∃ n ∈ root.walk, n.id = i ∧ j ∈ n.onward

/-- No alias stands inside a collection that it names, directly or through other aliases. -/
def Acyclic (root : Node) : Prop :=
  ∀ i, ¬ Relation.TransGen root.Leads i i

/-- A document is acyclic if its nodes can be ranked so that each goes on with lower ones only. -/
theorem acyclic_of_rank {root : Node} (rank : Nat → Nat)
    (h : ∀ n ∈ root.walk, ∀ j ∈ n.onward, rank j < rank n.id) : root.Acyclic := by
  have hstep : ∀ i j, root.Leads i j → rank i > rank j := by
    rintro i j ⟨n, hn, rfl, hj⟩
    exact h n hn j hj
  intro i hcycle
  have hdown : Relation.TransGen (· > ·) (rank i) (rank i) := hcycle.lift rank hstep
  rw [Relation.transGen_eq_self] at hdown
  exact Nat.lt_irrefl _ hdown

end Yaml.Node

namespace Tree

/-! ## The nodes being read -/

/-- The nodes that are being read when the reading comes to a node: different nodes of the document
that all lead to it. -/
structure Trail (root : Node) (size : Nat) (active : List Nat) (id : Nat) : Prop where
  leads : ∀ x ∈ active, Relation.TransGen root.Leads x id
  nodup : active.Nodup
  bounded : ∀ x ∈ active, x < size

namespace Trail

variable {root : Node} {size : Nat} {active : List Nat} {id : Nat}

theorem nil (root : Node) (size id : Nat) : Trail root size [] id :=
  ⟨nofun, List.nodup_nil, nofun⟩

theorem fresh (h : Trail root size active id) (hacyclic : root.Acyclic) : id ∉ active :=
  fun hmem => hacyclic id (h.leads id hmem)

theorem step {next : Nat} (h : Trail root size active id) (hacyclic : root.Acyclic)
    (hid : id < size) (hnext : root.Leads id next) : Trail root size (id :: active) next := by
  refine ⟨?_, List.nodup_cons.2 ⟨h.fresh hacyclic, h.nodup⟩, ?_⟩
  · intro x hx
    rcases List.mem_cons.1 hx with rfl | hx
    · exact .single hnext
    · exact (h.leads x hx).tail hnext
  · intro x hx
    rcases List.mem_cons.1 hx with rfl | hx
    · exact hid
    · exact h.bounded x hx

theorem length_le (h : Trail root size active id) : active.length ≤ size := by
  have hsub : active ⊆ List.range size := fun x hx => List.mem_range.2 (h.bounded x hx)
  simpa using List.Nodup.length_le_of_subset h.nodup hsub

end Trail

def openCells (o : Objects) (active : List Nat) : Nat :=
  active.countP fun x => x ∈ o.cells.map (·.1)

theorem openCells_le (o : Objects) {active : List Nat} (hnodup : active.Nodup) :
    openCells o active ≤ o.cells.length := by
  have hsub : (active.filter fun x => x ∈ o.cells.map (·.1)) ⊆ o.cells.map (·.1) :=
    fun x hx => of_decide_eq_true (List.mem_filter.1 hx).2
  have hle := List.Nodup.length_le_of_subset (hnodup.filter _) hsub
  rwa [List.length_map, ← List.countP_eq_length_filter] at hle

theorem openCells_cons {o : Objects} {id : Nat} {c : Cell} (hcell : o.cell? id = some c)
    (active : List Nat) : openCells o (id :: active) = openCells o active + 1 := by
  rcases List.lookup_eq_some_iff.1 hcell with ⟨before, rest, hcells, -⟩
  have hid : id ∈ o.cells.map (·.1) := by simp [hcells]
  simp [openCells, hid]

theorem openCells_le_cons (o : Objects) (active : List Nat) (id : Nat) :
    openCells o active ≤ openCells o (id :: active) := by
  rw [openCells, openCells, List.countP_cons]
  exact Nat.le_add_right _ _

/-! ## Values -/

/-- A plain scalar is no collection, and as a key stays what it is. -/
theorem keyOf_of_plain {tag content : String} {v : Value}
    (h : Scalar.plain? tag content = some (.ok v)) : keyOf v = v := by
  have hsimple := isSimple_of_plain? h
  cases v with
  | list items => exact hsimple.elim
  | map entries => exact hsimple.elim
  | _ => rfl

theorem scalarValue_of_plain {tag content : String} {v : Value}
    (h : Scalar.plain? tag content = some (.ok v)) : scalarValue tag content = .ok v := by
  rw [scalarValue, h]

/-- Reading the items of a map in which a key was set. -/
theorem map_putItem (f : Item → Value) (key : Value) (i : Item) (es : List (Value × Item)) :
    (Making.putItem key i es).map (fun e => (e.1, f e.2)) =
      Value.put key (f i) (es.map fun e => (e.1, f e.2)) := by
  induction es with
  | nil => rfl
  | cons e rest ih =>
    rw [Making.putItem, List.map_cons, Value.put]
    split
    · rfl
    · rw [List.map_cons, ih]

/-! ## Steps of reading -/

section

variable {visits : List Visit} {fuel id : Nat} {active : List Nat}

theorem dataFrom_scalar {info : Info} {value : Value} {raw : String} {style : Option Style}
    (h : id ∉ active) :
    dataFrom visits (fuel + 1) active id (.scalar info value raw style) = value := by
  simp [dataFrom, h]

theorem dataFrom_alias {info : Info} {name : String} {target : Nat} {t : Tree} (h : id ∉ active)
    (hat : nodeAt? visits target = some t) :
    dataFrom visits (fuel + 1) active id (.alias info name (some target)) =
      dataFrom visits fuel (id :: active) target t := by
  simp [dataFrom, h, hat]

theorem dataFrom_sequence {info : Info} {items : List Tree} (h : id ∉ active) :
    dataFrom visits (fuel + 1) active id (.sequence info items) =
      .list ((numberFrom (id + 1) items).map fun numbered =>
        dataFrom visits fuel (id :: active) numbered.1 numbered.2) := by
  simp [dataFrom, h]

/-- A tree of a key and a value is read as a key and what `f` makes of an item. -/
def ReadsPair (visits : List Visit) (fuel : Nat) (active : List Nat) (f : Item → Value)
    (numbered : Nat × Tree) (p : Value × Item) : Prop :=
  ∃ key value, numbered.2 = .pair (some key) (some value) ∧
    keyOf (dataFrom visits fuel active (numbered.1 + 1) key) = p.1 ∧
    dataFrom visits fuel active (numbered.1 + 1 + key.size) value = f p.2

/-- A map is read by setting its keys one after another, as its object was made. -/
theorem dataFrom_map {info : Info} {entries : List Tree} {pairs : List (Value × Item)}
    {f : Item → Value} (h : id ∉ active)
    (hpairs : List.Forall₂ (ReadsPair visits fuel (id :: active) f) (numberFrom (id + 1) entries)
      pairs) :
    dataFrom visits (fuel + 1) active id (.map info entries) =
      .map ((pairs.foldl (fun acc p => Making.putItem p.1 p.2 acc) []).map
        fun e => (e.1, f e.2)) := by
  rw [dataFrom, if_neg (by simpa using h)]
  refine congrArg Value.map (Abreast.foldl_eq
    (fun es : List (Value × Item) => es.map fun e => (e.1, f e.2)) hpairs ?_ [])
  rintro ⟨lo, _⟩ p ⟨key, value, rfl, hkey, hvalue⟩ acc
  rw [map_putItem, ← hkey, ← hvalue]
  rfl

end

/-! ## Reading and expanding -/

section

variable {a : Attached} {root : Node} {t : Tree} {o : Objects} {made : Nat → Option Item}

/-- What is known of a document that is read as a tree and loaded as objects. -/
structure Forms (a : Attached) (root : Node) (t : Tree) (o : Objects) (made : Nat → Option Item) :
    Prop where
  sound : root.Sound
  plain : (Records.ofNode root).Plain
  acyclic : root.Acyclic
  loads : Objects.Loads (Records.ofNode root) made o
  tree : image a root = .ok t

/-- Where the reading is when it comes to a node, and what is known there: the steps that are left
are more than the nodes that are not being read, and the depth that is left is at least the number
of collections that are not. -/
structure Arrives (a : Attached) (root : Node) (t : Tree) (o : Objects) (made : Nat → Option Item)
    (fuel : Nat) (active : List Nat) (depth : Nat) (n : Node) (t' : Tree) (i : Item) : Prop where
  mem : n ∈ root.walk
  tree : image a n = .ok t'
  item : made n.targetId = some i
  trail : Trail root t.visits.length active n.id
  steps : t.visits.length < fuel + active.length
  depth : o.cells.length ≤ depth + openCells o active

/-- Reading a node with the given number of steps is expanding its object, wherever the reading
comes from. -/
def Agrees (a : Attached) (root : Node) (t : Tree) (o : Objects) (made : Nat → Option Item)
    (fuel : Nat) : Prop :=
  ∀ {active depth n t' i}, Arrives a root t o made fuel active depth n t' i →
    dataFrom t.visits fuel active n.id t' = o.expand depth i

variable {fuel depth : Nat} {active : List Nat} {n : Node} {t' : Tree} {i : Item}

namespace Arrives

theorem fresh (h : Arrives a root t o made fuel active depth n t' i)
    (hforms : Forms a root t o made) : n.id ∉ active :=
  h.trail.fresh hforms.acyclic

/-- The reading comes to a node that it goes on with. -/
theorem onward {inner : Nat} {m : Node} {child : Tree} {part : Item}
    (h : Arrives a root t o made (fuel + 1) active depth n t' i) (hforms : Forms a root t o made)
    (hm : m ∈ root.walk) (honward : m.id ∈ n.onward)
    (hdepth : o.cells.length ≤ inner + openCells o (n.id :: active))
    (hchild : image a m = .ok child) (hpart : made m.targetId = some part) :
    Arrives a root t o made fuel (n.id :: active) inner m child part := by
  rcases nodeAt?_of_mem_walk hforms.sound.numbered hforms.tree h.mem with ⟨-, hbound, -⟩
  have hleads : root.Leads n.id m.id := ⟨n, h.mem, rfl, honward⟩
  have hsteps : t.visits.length < fuel + (n.id :: active).length := by
    rw [List.length_cons, ← Nat.add_assoc, Nat.add_right_comm]
    exact h.steps
  exact ⟨hm, hchild, hpart, h.trail.step hforms.acyclic hbound hleads, hsteps, hdepth⟩

/-- Inside a collection the depth is one less, and one more collection is open. -/
theorem exists_depth {c : Cell} (h : Arrives a root t o made fuel active depth n t' i)
    (hforms : Forms a root t o made) (hcell : o.cell? n.id = some c) :
    ∃ inner, depth = inner + 1 ∧ o.cells.length ≤ inner + openCells o (n.id :: active) := by
  have hle := openCells_le o (List.nodup_cons.2 ⟨h.fresh hforms, h.trail.nodup⟩)
  have hdepth := h.depth
  rw [openCells_cons hcell] at hle ⊢
  exact ⟨depth - 1, by omega, by omega⟩

end Arrives

@[simp]
theorem expand_atom (o : Objects) (depth : Nat) (v : Value) : o.expand depth (.atom v) = v := by
  cases depth <;> rfl

/-- What a key is made into stays what it is as a key. -/
theorem keyOf_of_made (hforms : Forms a root t o made) {id : Nat} {v : Value}
    (h : made id = some (.atom v)) : keyOf v = v := by
  rcases scalar_of_itemAt hforms.plain (hforms.loads.item h) with ⟨content, -, hvalue⟩
  exact keyOf_of_plain hvalue

section

variable {id : Nat} {span : Span} {tag : String}

theorem agrees_scalar {content : String} {style : Option Style} (hforms : Forms a root t o made)
    (h : Arrives a root t o made (fuel + 1) active depth (.scalar id span tag content style) t' i) :
    dataFrom t.visits (fuel + 1) active id t' = o.expand depth i := by
  rcases bind_eq_ok.1 h.tree with ⟨value, hvalue, hlast⟩
  cases hlast
  rcases hforms.loads.scalar hforms.sound hforms.plain h.mem h.item with ⟨v, rfl, hv⟩
  rw [scalarValue_of_plain hv] at hvalue
  cases hvalue
  exact (dataFrom_scalar (h.fresh hforms)).trans (expand_atom o depth value).symm

theorem agrees_sequence {items : List Node} (ih : Agrees a root t o made fuel)
    (hforms : Forms a root t o made)
    (h : Arrives a root t o made (fuel + 1) active depth (.sequence id span tag items) t' i) :
    dataFrom t.visits (fuel + 1) active id t' = o.expand depth i := by
  rcases bind_eq_ok.1 h.tree with ⟨ts, hts, hlast⟩
  cases hlast
  rcases hforms.loads.sequence hforms.sound hforms.plain h.mem h.item with
    ⟨rfl, parts, hcell, hparts⟩
  rcases h.exists_depth hforms hcell with ⟨inner, rfl, hinner⟩
  rcases nodeAt?_of_mem_walk hforms.sound.numbered hforms.tree h.mem with ⟨hnumbered, -⟩
  have hexpand : o.expand (inner + 1) (.cell id) = .list (parts.map (o.expand inner)) := by
    simp [Objects.expand, hcell]
  rw [hexpand]
  refine (dataFrom_sequence (h.fresh hforms)).trans (congrArg Value.list (Abreast.map_eq_map
    (Abreast.common (forall₂_imageItems hnumbered.2 hts) hparts) ?_))
  rintro ⟨lo, child⟩ part ⟨m, hm, ⟨hlo, hchild⟩, hpart⟩
  have honward : m.id ∈ items.map Node.id := List.mem_map.2 ⟨m, hm, rfl⟩
  have hagrees := ih (h.onward hforms (Node.mem_walk_item h.mem hm) honward hinner hchild hpart)
  rwa [hlo.id_eq] at hagrees

theorem agrees_mapping {entries : List (Node × Node)} (ih : Agrees a root t o made fuel)
    (hforms : Forms a root t o made)
    (h : Arrives a root t o made (fuel + 1) active depth (.mapping id span tag entries) t' i) :
    dataFrom t.visits (fuel + 1) active id t' = o.expand depth i := by
  rcases bind_eq_ok.1 h.tree with ⟨ts, hts, hlast⟩
  cases hlast
  rcases hforms.loads.mapping hforms.sound hforms.plain h.mem h.item with
    ⟨rfl, pairs, hcell, hpairs⟩
  rcases h.exists_depth hforms hcell with ⟨inner, rfl, hinner⟩
  rcases nodeAt?_of_mem_walk hforms.sound.numbered hforms.tree h.mem with ⟨hnumbered, -⟩
  have hexpand : o.expand (inner + 1) (.cell id) = .map ((pairs.foldl (fun acc p =>
      Making.putItem p.1 p.2 acc) []).map fun e => (e.1, o.expand inner e.2)) := by
    simp [Objects.expand, hcell]
  rw [hexpand]
  refine dataFrom_map (h.fresh hforms)
    ((Abreast.common (forall₂_imageEntries hnumbered.2 hts) hpairs).imp ?_)
  rintro ⟨lo, _⟩ p ⟨e, he, ⟨key, value, rfl, ⟨hlo, htree⟩, hlo', htree'⟩, hatom, hpart⟩
  have honward : ∀ m ∈ [e.1, e.2], m.id ∈ entries.flatMap fun e => [e.1.id, e.2.id] :=
    fun m hm => List.mem_flatMap.2 ⟨e, he, List.mem_map_of_mem hm⟩
  rcases Node.mem_walk_entry h.mem he with ⟨hinKey, hinValue⟩
  have hkey := ih (h.onward hforms hinKey (honward _ (by simp)) hinner htree hatom)
  have hvalue := ih (h.onward hforms hinValue (honward _ (by simp)) hinner htree' hpart)
  rw [hlo.id_eq, expand_atom] at hkey
  rw [hlo'.id_eq] at hvalue
  exact ⟨key, value, rfl, (congrArg keyOf hkey).trans (keyOf_of_made hforms hatom), hvalue⟩

theorem agrees_alias {anchor : String} {target : Nat} (ih : Agrees a root t o made fuel)
    (hforms : Forms a root t o made)
    (h : Arrives a root t o made (fuel + 1) active depth (.alias id span anchor target) t' i) :
    dataFrom t.visits (fuel + 1) active id t' = o.expand depth i := by
  have htree := h.tree
  cases htree
  rcases hforms.sound.targets _ h.mem target rfl with ⟨m, hm, hnone, rfl⟩
  rcases nodeAt?_of_mem_walk hforms.sound.numbered hforms.tree hm with ⟨-, -, child, hat, hchild⟩
  have hpart : made m.targetId = some i := by
    rw [Node.targetId_eq_id hnone]
    exact h.item
  -- No collection is entered, so that the depth stays.
  have hdepth := Nat.le_trans h.depth (Nat.add_le_add_left (openCells_le_cons o active id) depth)
  have hagrees := ih (h.onward hforms hm (List.mem_singleton.2 rfl) hdepth hchild hpart)
  exact (dataFrom_alias (h.fresh hforms) hat).trans hagrees

end

theorem dataFrom_eq_expand (hforms : Forms a root t o made) (fuel : Nat) :
    Agrees a root t o made fuel := by
  induction fuel with
  | zero =>
    intro active depth n t' i h
    have hle := h.trail.length_le
    have hsteps := h.steps
    omega
  | succ fuel ih =>
    intro active depth n t' i h
    cases n with
    | scalar => exact agrees_scalar hforms h
    | sequence => exact agrees_sequence ih hforms h
    | mapping => exact agrees_mapping ih hforms h
    | «alias» => exact agrees_alias ih hforms h

/-- A document whose objects are made has a tree: all its scalars have values. -/
theorem exists_image (a : Attached) (hsound : root.Sound) (hplain : (Records.ofNode root).Plain)
    (hloads : Objects.Loads (Records.ofNode root) made o) (hmade : made root.targetId = some i) :
    ∃ t, image a root = .ok t := by
  have hscalars : ∀ s ∈ root.texts, ∃ r, scalarOf s = .ok r := by
    intro s hs
    rcases List.mem_filterMap.1 hs with ⟨n, hn, htext⟩
    rcases hloads.exists_made_below hsound hplain root (Node.mem_walk_self _) ⟨i, hmade⟩ n hn with
      ⟨j, hj⟩
    cases n with
    | scalar id span tag content style =>
      cases htext
      rcases hloads.scalar hsound hplain hn hj with ⟨v, -, hv⟩
      exact ⟨_, map_eq_ok.2 ⟨v, scalarValue_of_plain hv, rfl⟩⟩
    | _ => cases htext
  have hmap := map_scalars_image a root
  cases htree : image a root with
  | ok t => exact ⟨t, rfl⟩
  | error f =>
    rw [htree] at hmap
    rcases mapM_eq_error hmap.symm with ⟨s, hs, hfail⟩
    rcases hscalars s hs with ⟨r, hr⟩
    rw [hr] at hfail
    cases hfail

/-- The data of a tree is what its objects are, down to any depth that leaves no collection out. -/
theorem data_eq_expand (hforms : Forms a root t o made) (hmade : made root.targetId = some i)
    (hdepth : o.cells.length ≤ depth) : data (some t) = o.expand depth i := by
  have hagrees := dataFrom_eq_expand hforms (t.visits.length + 1) ⟨Node.mem_walk_self root,
    hforms.tree, hmade, Trail.nil _ _ _, Nat.lt_succ_self _, Nat.le_add_right_of_le hdepth⟩
  rwa [hforms.sound.numbered.id_eq] at hagrees

end

end Tree

/-! ## Texts -/

theorem Document.exists_ofComposed {c : Composed} {root : Node} {comments : List Comment} {t : Tree}
    (customTags : List String) (hc : c.Resolved) (hroot : c.root = some root)
    (ht : Tree.image (Attached.ofComments (some root) comments) root = .ok t) :
    ∃ d, ofComposed customTags c comments = .ok d ∧ d.root = some t := by
  rw [ofComposed, hroot]
  rw [← Tree.ofNode_eq_image (hc root hroot)] at ht
  exact ⟨_, bind_eq_ok.2 ⟨t, ht, rfl⟩, rfl⟩

namespace DocumentSet

/-- A text of one document is read as this document, if its tree can be made. -/
theorem parse_of_singleDocument {text : String} {root : Node} (customTags : List String)
    (h : singleDocument text.toList = .ok (some root))
    (htree : ∀ a, ∃ t, Tree.image a root = .ok t) :
    ∃ set d a t, parse text customTags = .ok set ∧ set.documents = [d] ∧ d.root = some t ∧
      Tree.image a root = .ok t := by
  rcases composed_of_singleDocument h with ⟨hhalt, -, c, hroot, hcomposed⟩
  rcases parse_cases text customTags with ⟨halt, hfatal, -⟩ | ⟨-, shares, hshares, hparse⟩
  · -- What stops the tokens would stop the events.
    rcases Option.filter_eq_some_iff.1 hfatal with ⟨hstop, -⟩
    have hstops := halt_eventsOf_isSome text (by rw [hstop]; rfl)
    rw [eventsOf, TokenStream.ofText, hhalt] at hstops
    cases hstops
  · rw [eventsOf, TokenStream.ofText, hcomposed] at hshares
    rcases List.map_eq_singleton_iff.1 hshares with ⟨⟨c', comments⟩, rfl, rfl⟩
    dsimp only at hroot
    rcases htree (Attached.ofComments (some root) comments) with ⟨t, ht⟩
    have hresolved := Composed.resolved_of_mem (hcomposed ▸ List.mem_singleton_self c')
    rcases Document.exists_ofComposed customTags hresolved hroot ht with ⟨d, hd, hdroot⟩
    have hconvert : convert customTags [(c', comments)] = .ok [d] :=
      bind_eq_ok.2 ⟨d, hd, rfl⟩
    rw [hconvert] at hparse
    exact ⟨_, d, _, t, hparse, rfl, hdroot, ht⟩

/-- The data that is read off the tree of a text is the data that is made of the text as objects. -/
theorem data_of_parse {text : String} {root : Node} {o : Objects} (customTags : List String)
    (hsingle : singleDocument text.toList = .ok (some root))
    (hobjects : Objects.ofChars text.toList = .ok o)
    (htags : ∀ n ∈ root.walk, ∀ tag ∈ n.tag?, tag ∈ plainTags) (hacyclic : root.Acyclic) :
    ∃ set d, parse text customTags = .ok set ∧ set.documents = [d] ∧
      ∀ depth, o.cells.length ≤ depth → Tree.data d.root = o.expand depth o.root := by
  rcases composed_of_singleDocument hsingle with ⟨-, hsound, -⟩
  have hplain := plain_ofNode htags
  rw [Objects.ofChars, hsingle] at hobjects
  rcases Objects.loads_ofNode hplain hobjects with ⟨made, hmade, hloads⟩
  rw [← Node.targetId_eq_id hsound.target?_root] at hmade
  have htree := fun a => Tree.exists_image a hsound hplain hloads hmade
  rcases parse_of_singleDocument customTags hsingle htree with ⟨set, d, a, t, hparse, hd, hroot, ht⟩
  refine ⟨set, d, hparse, hd, fun depth hdepth => ?_⟩
  rw [hroot]
  exact Tree.data_eq_expand ⟨hsound, hplain, hacyclic, hloads, ht⟩ hmade hdepth

/-- A list under an anchor, named three times, once from a map that is named in turn; and two pairs
of equal keys, of which one pair is written in two ways. -/
def sharedText : String :=
  "a: &x [1, \x7bk: ~\x7d]\nb: *x\n1: p\ntrue: *x\na: &y \x7bz: *x\x7d\nc: [*y, *y]\n"

/-- The data of the text: the last of two equal keys gives the value, and the first one its
place. -/
def sharedData : String :=
  "\x7b'a': \x7b'z': [1, \x7b'k': None\x7d]\x7d, 'b': [1, \x7b'k': None\x7d], " ++
    "1: [1, \x7b'k': None\x7d], " ++
    "'c': [\x7b'z': [1, \x7b'k': None\x7d]\x7d, \x7b'z': [1, \x7b'k': None\x7d]\x7d]\x7d"

def sharedRank (id : Nat) : Nat :=
  ([(0, 7), (26, 6), (27, 5), (28, 5), (20, 4), (11, 3), (17, 3), (23, 3), (3, 2), (5, 1)].lookup
    id).getD 0

theorem data_of_parse_sharedText :
    ∃ root o set d, singleDocument sharedText.toList = .ok (some root) ∧
      Objects.ofChars sharedText.toList = .ok o ∧
      (∀ n ∈ root.walk, ∀ tag ∈ n.tag?, tag ∈ plainTags) ∧ root.Acyclic ∧
      parse sharedText [] = .ok set ∧ set.documents = [d] ∧
      Tree.data d.root = o.expand o.cells.length o.root ∧ (Tree.data d.root).text = sharedData := by
  have hchecked : ∃ root ∈ (singleDocument sharedText.toList).toOption.join, ∀ n ∈ root.walk,
      (∀ tag ∈ n.tag?, tag ∈ plainTags) ∧ ∀ j ∈ n.onward, sharedRank j < sharedRank n.id := by
    decide +kernel
  have hexpanded : ∃ o ∈ (Objects.ofChars sharedText.toList).toOption,
      (o.expand o.cells.length o.root).text = sharedData := by
    decide +kernel
  rcases hchecked with ⟨root, hroot, hnodes⟩
  rcases hexpanded with ⟨o, ho, htext⟩
  have hsingle : singleDocument sharedText.toList = .ok (some root) :=
    toOption_eq_some.1 (Option.join_eq_some_iff.1 hroot)
  have hobjects : Objects.ofChars sharedText.toList = .ok o := toOption_eq_some.1 ho
  have htags : ∀ n ∈ root.walk, ∀ tag ∈ n.tag?, tag ∈ plainTags := fun n hn => (hnodes n hn).1
  have hacyclic : root.Acyclic := Node.acyclic_of_rank sharedRank fun n hn => (hnodes n hn).2
  rcases data_of_parse [] hsingle hobjects htags hacyclic with ⟨set, d, hparse, hd, hdata⟩
  have hvalue := hdata _ (Nat.le_refl _)
  refine ⟨root, o, set, d, hsingle, hobjects, htags, hacyclic, hparse, hd, hvalue, ?_⟩
  rw [hvalue]
  exact htext

end DocumentSet
end YamlServer
