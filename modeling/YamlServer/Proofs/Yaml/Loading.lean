import YamlServer.Proofs.Tree.Numbering
import YamlServer.Proofs.Yaml.Anchors
import YamlServer.Proofs.Yaml.Making
import YamlServer.Proofs.Yaml.NodeNumber
import YamlServer.Proofs.Yaml.Targets

/-!
# Composed documents as objects

The nodes of a composed document, and what is made of them when the document is loaded. Records are
found by number, so that what is known of records is said here of nodes: a scalar is made into its
value, a sequence into a list of what is made of its items, and a mapping into a map. An alias
stands for the node it names.

* `Yaml.Objects.Loads.scalar`, `Yaml.Objects.Loads.sequence`, `Yaml.Objects.Loads.mapping`: what is
  made of a node.
* `Yaml.Objects.Loads.exists_made_below`: something is made of every node.
-/

namespace YamlServer
namespace Yaml

/-! ## Composed documents -/

namespace Node

/-- The nodes below a node of a document are nodes of the document. -/
theorem walk_subset {root n : Node} (h : n ∈ root.walk) : n.walk ⊆ root.walk := by
  induction root using Node.induction_below with
  | scalar id span tag content style =>
    rcases List.mem_singleton.1 h with rfl
    exact List.Subset.refl _
  | leaf id span anchor target =>
    rcases List.mem_singleton.1 h with rfl
    exact List.Subset.refl _
  | sequence id span tag items ih =>
    rcases List.mem_cons.1 h with rfl | h
    · exact List.Subset.refl _
    · rw [walk, walkItems_eq]
      rw [walkItems_eq] at h
      rcases List.mem_flatMap.1 h with ⟨item, hitem, h⟩
      intro m hm
      exact List.mem_cons_of_mem _ (List.mem_flatMap.2 ⟨item, hitem, ih item hitem h hm⟩)
  | mapping id span tag entries ih =>
    rcases List.mem_cons.1 h with rfl | h
    · exact List.Subset.refl _
    · rw [walk, walkEntries_eq]
      rw [walkEntries_eq] at h
      rcases List.mem_flatMap.1 h with ⟨entry, hentry, h⟩
      rcases ih entry hentry with ⟨hkey, hvalue⟩
      intro m hm
      refine List.mem_cons_of_mem _ (List.mem_flatMap.2 ⟨entry, hentry, ?_⟩)
      rcases List.mem_append.1 h with h | h
      · exact List.mem_append_left _ (hkey h hm)
      · exact List.mem_append_right _ (hvalue h hm)

theorem mem_walk_self (n : Node) : n ∈ n.walk := by
  cases n <;> simp [walk]

theorem mem_walk_item {root m : Node} {id : Nat} {span : Span} {tag : String} {items : List Node}
    (h : .sequence id span tag items ∈ root.walk) (hm : m ∈ items) : m ∈ root.walk := by
  refine walk_subset h ?_
  rw [walk, walkItems_eq]
  exact List.mem_cons_of_mem _ (List.mem_flatMap.2 ⟨m, hm, mem_walk_self m⟩)

theorem mem_walk_entry {root : Node} {id : Nat} {span : Span} {tag : String}
    {entries : List (Node × Node)} {e : Node × Node}
    (h : .mapping id span tag entries ∈ root.walk) (he : e ∈ entries) :
    e.1 ∈ root.walk ∧ e.2 ∈ root.walk := by
  have hsides : ∀ m ∈ e.1.walk ++ e.2.walk, m ∈ root.walk := by
    intro m hm
    refine walk_subset h ?_
    rw [walk, walkEntries_eq]
    exact List.mem_cons_of_mem _ (List.mem_flatMap.2 ⟨e, he, hm⟩)
  exact ⟨hsides _ (List.mem_append_left _ (mem_walk_self _)),
    hsides _ (List.mem_append_right _ (mem_walk_self _))⟩

theorem targetId_eq_id {n : Node} (h : n.target? = none) : n.targetId = n.id := by
  cases n with
  | «alias» => cases h
  | _ => rfl

/-- What composing makes sure of: the nodes are numbered in the order of the walk, each has a number
of its own, and every alias names a node. -/
structure Sound (root : Node) : Prop where
  numbered : root.Numbered 0
  nodup : (root.walk.map Node.id).Nodup
  targets : ∀ n ∈ root.walk, ∀ target ∈ n.target?, Holds root.walk target

end Node

theorem NodeReader.sound_root {events : List Event} {root : Node} {after : NodeReader}
    (h : NodeReader.root events = .ok (root, after)) : root.Sound := by
  refine ⟨numbered_root h, ?_, fun n hn target htarget => exists_target h hn htarget⟩
  refine List.pairwise_map.2 ((NodeReader.counts_root h).ordered.imp ?_)
  intro m m' hlt
  exact Nat.ne_of_lt hlt

/-- A root is no alias, since it would be the only node and name another one. -/
theorem Node.Sound.target?_root {root : Node} (h : root.Sound) : root.target? = none := by
  cases root with
  | «alias» id span anchor target =>
    rcases h.targets _ (Node.mem_walk_self _) target rfl with ⟨n, hn, hnone, -⟩
    rcases List.mem_singleton.1 hn with rfl
    cases hnone
  | _ => rfl

/-- The events of a text of one document: its start, those of its root, its end, and the end of the
stream. -/
theorem exists_of_singleDocument {cs : List Char} {root : Node}
    (h : singleDocument cs = .ok (some root)) :
    ∃ start rest after stop last more,
      (EventStream.ofTokens (TokenStream.ofChars cs)).events = start :: rest ∧
      (start.kind == .streamEnd) = false ∧ NodeReader.root rest = .ok (root, after) ∧
      after.events = stop :: last :: more ∧ last.kind = .streamEnd := by
  simp only [singleDocument] at h
  -- A stream that ends sooner gives no root, whether something stopped it or not.
  split at h
  · split at h <;> cases h
  · rename_i start rest hevents
    split at h
    · cases h
    · rename_i hstart
      split at h
      · cases h
      · split at h <;> cases h
      · rename_i root' after hroot
        split at h
        · split at h <;> cases h
        · rename_i last more hdrop
          split at h
          · rename_i hlast
            cases h
            cases hafter : after.events with
            | nil => simp [hafter] at hdrop
            | cons stop rest' =>
              refine ⟨start, rest, after, stop, last, more, hevents, Bool.eq_false_iff.2 hstart,
                hroot, ?_, beq_iff_eq.1 hlast⟩
              rw [hafter] at hdrop
              exact hafter.trans (congrArg (stop :: ·) hdrop)
          · cases h

/-- A text of one document is read to its end, and is composed of this document alone. -/
theorem composed_of_singleDocument {cs : List Char} {root : Node}
    (h : singleDocument cs = .ok (some root)) :
    (EventStream.ofTokens (TokenStream.ofChars cs)).halt = none ∧ root.Sound ∧
      ∃ c : Composed, c.root = some root ∧
        Composed.ofEvents cs.length (EventStream.ofTokens (TokenStream.ofChars cs)) = [c] := by
  rcases exists_of_singleDocument h with
    ⟨start, rest, after, stop, last, more, hevents, hstart, hroot, hafter, hlast⟩
  have hbracketed := EventStream.bracketed_ofTokens (TokenStream.ofChars cs)
  rw [hevents] at hbracketed
  have hmeets : (stop :: last :: more) <:+ rest := by
    rcases hbracketed.stream with ⟨hkind, -⟩ | ⟨-, hrest⟩
    · simp [hkind] at hstart
    · have hmeets := NodeReader.root_meets hrest
      rw [hroot] at hmeets
      exact hafter ▸ hmeets.2.2
  have hmem : last ∈ (EventStream.ofTokens (TokenStream.ofChars cs)).events := by
    rw [hevents]
    exact List.mem_cons_of_mem _ (hmeets.subset (by simp))
  refine ⟨(EventStream.run_ofTokens _).halt_of_streamEnd hmem hlast, NodeReader.sound_root hroot,
    ⟨some root, start.start.index, stop.stop.index, none⟩, rfl, ?_⟩
  simp [Composed.ofEvents, Composed.ofEventsFrom, hevents, hstart, hroot, hafter, hlast]

/-! ## Records of a composed document -/

theorem fst_record? {n : Node} {e : Nat × Record} (h : n.record? = some e) : e.1 = n.id := by
  cases n with
  | «alias» => cases h
  | _ =>
    cases h
    rfl

/-- The record of a node is found by its number. -/
theorem Node.Sound.get_ofNode {root n : Node} (h : root.Sound) (hn : n ∈ root.walk) {id : Nat}
    {r : Record} (hr : n.record? = some (id, r)) : (Records.ofNode root).get id = r := by
  have hmem : (id, r) ∈ Records.ofNode root := List.mem_filterMap.2 ⟨n, hn, hr⟩
  unfold Records.get
  cases hlookup : (Records.ofNode root).lookup id with
  | none =>
    have hne := List.lookup_eq_none_iff.1 hlookup _ hmem
    simp at hne
  | some r' =>
    rcases List.lookup_eq_some_iff.1 hlookup with ⟨before, rest, hrecords, -⟩
    have hmem' : (id, r') ∈ Records.ofNode root := by simp [hrecords]
    rcases List.mem_filterMap.1 hmem' with ⟨n', hn', hr'⟩
    -- Both records belong to the node of this number.
    have hid : n'.id = n.id := by rw [← fst_record? hr', ← fst_record? hr]
    have hsame : n' = n := List.inj_on_of_nodup_map h.nodup hn' hn hid
    rw [hsame, hr] at hr'
    cases hr'
    rfl

theorem plain_ofNode {root : Node} (h : ∀ n ∈ root.walk, ∀ tag ∈ n.tag?, tag ∈ plainTags) :
    (Records.ofNode root).Plain := by
  intro e he
  rcases List.mem_filterMap.1 he with ⟨n, hn, hr⟩
  have htag : e.2.tag ∈ n.tag? := by
    cases n with
    | «alias» => cases hr
    | _ =>
      cases hr
      rfl
  exact h n hn _ htag

/-! ## What is made of the nodes -/

namespace Objects.Loads

variable {root : Node} {o : Objects} {made : Nat → Option Item} {id : Nat} {span : Span}
  {tag : String} {i : Item}

/-- What is made of a node is the value of a scalar or a cell. -/
theorem made_cases {rs : Records} (h : Loads rs made o) (hplain : rs.Plain)
    (hi : made id = some i) :
    (∃ v content, i = .atom v ∧ (rs.get id).body = .scalar content ∧
        Scalar.plain? (rs.get id).tag content = some (.ok v)) ∨
      (i = .cell id ∧ ∃ c, o.cell? id = some c ∧ Content rs made id c) := by
  cases i with
  | atom v =>
    rcases scalar_of_itemAt hplain (h.item hi) with ⟨content, hbody, hvalue⟩
    exact Or.inl ⟨v, content, rfl, hbody, hvalue⟩
  | cell id' =>
    obtain ⟨rfl, -⟩ := cell_of_itemAt (h.item hi)
    exact Or.inr ⟨rfl, h.cell hi⟩

theorem scalar {content : String} {style : Option Style}
    (h : Loads (Records.ofNode root) made o) (hsound : root.Sound)
    (hplain : (Records.ofNode root).Plain) (hn : .scalar id span tag content style ∈ root.walk)
    (hi : made id = some i) : ∃ v, i = .atom v ∧ Scalar.plain? tag content = some (.ok v) := by
  have hrecord := hsound.get_ofNode hn rfl
  rcases h.made_cases hplain hi with ⟨v, content', hatom, hbody, hvalue⟩ | ⟨-, c, -, hcontent⟩
  · rw [hrecord] at hbody hvalue
    cases hbody
    exact ⟨v, hatom, hvalue⟩
  · cases hcontent with
    | list hbody _ =>
      rw [hrecord] at hbody
      cases hbody
    | map hbody _ =>
      rw [hrecord] at hbody
      cases hbody

/-- A sequence is made into a list of what is made of its items. -/
theorem sequence {items : List Node} (h : Loads (Records.ofNode root) made o)
    (hsound : root.Sound) (hplain : (Records.ofNode root).Plain)
    (hn : .sequence id span tag items ∈ root.walk) (hi : made id = some i) :
    i = .cell id ∧ ∃ parts, o.cell? id = some (.list parts) ∧
      List.Forall₂ (fun m i => made m.targetId = some i) items parts := by
  have hrecord := hsound.get_ofNode hn rfl
  rcases h.made_cases hplain hi with ⟨v, content, -, hbody, -⟩ | ⟨hid, c, hcell, hcontent⟩
  · rw [hrecord] at hbody
    cases hbody
  · cases hcontent with
    | @list _ parts hbody hparts =>
      rw [hrecord] at hbody
      cases hbody
      exact ⟨hid, parts, hcell, List.forall₂_map_left_iff.1 hparts⟩
    | map hbody _ =>
      rw [hrecord] at hbody
      cases hbody

/-- A mapping is made into a map of what is made of its keys and values; the keys are scalars. -/
theorem mapping {entries : List (Node × Node)} (h : Loads (Records.ofNode root) made o)
    (hsound : root.Sound) (hplain : (Records.ofNode root).Plain)
    (hn : .mapping id span tag entries ∈ root.walk) (hi : made id = some i) :
    i = .cell id ∧ ∃ pairs : List (Value × Item),
      o.cell? id = some (.map (pairs.foldl (fun acc p => Making.putItem p.1 p.2 acc) [])) ∧
      List.Forall₂ (fun e p => made e.1.targetId = some (.atom p.1) ∧
        made e.2.targetId = some p.2) entries pairs := by
  have hrecord := hsound.get_ofNode hn rfl
  rcases h.made_cases hplain hi with ⟨v, content, -, hbody, -⟩ | ⟨hid, c, hcell, hcontent⟩
  · rw [hrecord] at hbody
    cases hbody
  · cases hcontent with
    | list hbody _ =>
      rw [hrecord] at hbody
      cases hbody
    | @map _ pairs hbody hparts =>
      rw [hrecord] at hbody
      cases hbody
      exact ⟨hid, pairs, hcell, List.forall₂_map_left_iff.1 hparts⟩

/-- Something is made of every node below one of which something is made. -/
theorem exists_made_below (h : Loads (Records.ofNode root) made o) (hsound : root.Sound)
    (hplain : (Records.ofNode root).Plain) (n : Node) :
    n ∈ root.walk → (∃ i, made n.targetId = some i) →
      ∀ m ∈ n.walk, ∃ i, made m.targetId = some i := by
  induction n using Node.induction_below with
  | scalar id span tag content style =>
    intro _ hmade m hm
    rcases List.mem_singleton.1 hm with rfl
    exact hmade
  | leaf id span anchor target =>
    intro _ hmade m hm
    rcases List.mem_singleton.1 hm with rfl
    exact hmade
  | sequence id span tag items ih =>
    intro hn hmade m hm
    rcases List.mem_cons.1 hm with rfl | hm
    · exact hmade
    · rcases hmade with ⟨i, hi⟩
      rcases h.sequence hsound hplain hn hi with ⟨-, parts, -, hparts⟩
      rw [Node.walkItems_eq] at hm
      rcases List.mem_flatMap.1 hm with ⟨item, hitem, hm⟩
      rcases Abreast.exists_of_mem hparts hitem with ⟨part, -, hpart⟩
      exact ih item hitem (Node.mem_walk_item hn hitem) ⟨part, hpart⟩ m hm
  | mapping id span tag entries ih =>
    intro hn hmade m hm
    rcases List.mem_cons.1 hm with rfl | hm
    · exact hmade
    · rcases hmade with ⟨i, hi⟩
      rcases h.mapping hsound hplain hn hi with ⟨-, pairs, -, hpairs⟩
      rw [Node.walkEntries_eq] at hm
      rcases List.mem_flatMap.1 hm with ⟨entry, hentry, hm⟩
      rcases Abreast.exists_of_mem hpairs hentry with ⟨pair, -, hkey, hvalue⟩
      rcases Node.mem_walk_entry hn hentry with ⟨hinKey, hinValue⟩
      rcases ih entry hentry with ⟨ihKey, ihValue⟩
      rcases List.mem_append.1 hm with hm | hm
      · exact ihKey hinKey ⟨_, hkey⟩ m hm
      · exact ihValue hinValue ⟨_, hvalue⟩ m hm

end Objects.Loads
end Yaml
end YamlServer
