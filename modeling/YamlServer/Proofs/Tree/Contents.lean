import YamlServer.Proofs.Tree.Nesting

/-!
# Ways down a tree

A way down a tree goes from a map to the value of one of its pairs, or from a sequence to one of its
items. An offset leads down one such way: from each node to the first of its contents that holds the
offset.

Ranges include their ends, so a node is not always on the way to its own start: a sibling that ends
there comes first. It is on that way if the contents of a collection never touch.

* `Tree.Spaced.leads_of_path`: in such a tree an offset leads to every node that holds it.
* `Tree.Spaced.reached`: the path to a node outside of keys, and the numbers on it.
-/

namespace YamlServer
namespace Tree

/-! ## The way to an offset -/

/-- How a node hangs in a collection: as the value under a key, which has a text if it is a scalar,
or as an item. -/
inductive Slot where
  | member (key : Option String)
  | item
deriving Repr, DecidableEq

/-- A node that a collection holds, with its number. -/
structure Content where
  slot : Slot
  id : Nat
  node : Tree
deriving Repr

def contentOf? (i : Nat) : Tree → Option Content
  | .pair key (some value) =>
    some ⟨.member (Tree.pair key (some value)).keyText?, i + 1 + sizeOption key, value⟩
  | _ => none

/-- The values of the pairs of a map, or the items of a sequence, that is numbered `id`. -/
def contents (id : Nat) : Tree → List Content
  | .map _ entries => (numberFrom (id + 1) entries).filterMap fun e => contentOf? e.1 e.2
  | .sequence _ items => (numberFrom (id + 1) items).map fun e => ⟨.item, e.1, e.2⟩
  | _ => []

/-- An offset leads from the node numbered `id` to these contents, each in the one before it, and
from the last one no further. -/
inductive Leads (offset : Int) : Nat → Tree → List Content → Prop where
  | stop {id : Nat} {t : Tree} :
      (t.contents id).find? (·.node.contains offset) = none → Leads offset id t []
  | step {id : Nat} {t : Tree} {c : Content} {cs : List Content} :
      (t.contents id).find? (·.node.contains offset) = some c → Leads offset c.id c.node cs →
      Leads offset id t (c :: cs)

/-- A content hangs in a node directly, or in a pair of it. -/
theorem content_cases {id : Nat} {t : Tree} {c : Content} (h : c ∈ t.contents id) :
    (∃ info entries i key, t = .map info entries ∧
      (i, .pair key (some c.node)) ∈ numberFrom (id + 1) entries ∧
      c.slot = .member (Tree.pair key (some c.node)).keyText? ∧ c.id = i + 1 + sizeOption key) ∨
    ∃ info items, t = .sequence info items ∧ (c.id, c.node) ∈ numberFrom (id + 1) items ∧
      c.slot = .item := by
  cases t with
  | map info entries =>
    obtain ⟨⟨i, e⟩, he, hc⟩ := List.mem_filterMap.1 h
    cases e with
    | pair key value =>
      cases value with
      | none => cases hc
      | some value =>
        cases hc
        exact Or.inl ⟨info, entries, i, key, rfl, he, rfl, rfl⟩
    | _ => cases hc
  | sequence info items =>
    obtain ⟨e, he, rfl⟩ := List.mem_map.1 h
    exact Or.inr ⟨info, items, rfl, he, rfl⟩
  | _ => cases h

theorem size_lt_of_mem_contents {id : Nat} {t : Tree} {c : Content} (h : c ∈ t.contents id) :
    c.node.size < t.size := by
  rcases content_cases h with ⟨info, entries, i, key, rfl, he, -, -⟩ | ⟨info, items, rfl, hi, -⟩
  · have hpair : c.node.size < (Tree.pair key (some c.node)).size :=
      size_lt_of_mem_children (by simp [children])
    exact Nat.lt_trans hpair
      (size_lt_of_mem_children (t := .map info entries) (mem_of_mem_numberFrom he))
  · exact size_lt_of_mem_children (t := .sequence info items) (mem_of_mem_numberFrom hi)

/-- A way down is shorter than the tree is large. -/
theorem Leads.length_lt {offset : Int} {id : Nat} {t : Tree} {cs : List Content}
    (h : Leads offset id t cs) : cs.length < t.size := by
  induction h with
  | stop _ => exact size_pos _
  | step hc _ ih =>
    have hlt := size_lt_of_mem_contents (List.mem_of_find?_eq_some hc)
    rw [List.length_cons]
    omega

theorem exists_leads (offset : Int) (id : Nat) (t : Tree) : ∃ cs, Leads offset id t cs := by
  induction hsize : t.size using Nat.strongRecOn generalizing id t with
  | ind n ih =>
    cases hfind : (t.contents id).find? (·.node.contains offset) with
    | none => exact ⟨[], .stop hfind⟩
    | some c =>
      have hlt := size_lt_of_mem_contents (List.mem_of_find?_eq_some hfind)
      rcases ih c.node.size (hsize ▸ hlt) c.id c.node rfl with ⟨cs, hcs⟩
      exact ⟨c :: cs, .step hfind hcs⟩

/-! ## The path of a node -/

/-- A way from one node to another, through contents. -/
inductive Path : Nat → Tree → List Content → Nat → Tree → Prop where
  | here (id : Nat) (t : Tree) : Path id t [] id t
  | down {id i : Nat} {t u : Tree} {c : Content} {cs : List Content} :
      c ∈ t.contents id → Path c.id c.node cs i u → Path id t (c :: cs) i u

theorem Path.snoc {id i : Nat} {t u : Tree} {cs : List Content} {c : Content}
    (h : Path id t cs i u) (hc : c ∈ u.contents i) : Path id t (cs ++ [c]) c.id c.node := by
  induction h with
  | here id t => exact .down hc (.here _ _)
  | down hfirst _ ih => exact .down hfirst (ih hc)

def rangedPath (visits : List Visit) (id : Nat) : List Nat :=
  ((id :: ancestors visits id).reverse).filter fun i =>
    ((nodeAt? visits i).bind range?).isSome

def slotBelow (t : Tree) : Slot :=
  if t.isPair then .member t.keyText? else .item

/-- A tree in which ranges nest and contents stand apart. Pairs are the entries of maps, and have no
range. -/
structure Spaced (root : Tree) : Prop where
  top : root.isPair = false
  entries : ∀ v ∈ root.visits, ∀ c ∈ v.node.children,
    c.isPair = true ↔ ∃ info entries, v.node = .map info entries
  ranged : ∀ v ∈ root.visits, v.node.isPair = false →
    ∃ s e, v.node.range? = some (s, e) ∧ s ≤ e
  /-- A range lies inside the nearest range above it. -/
  inside : ∀ v ∈ root.visits, ∀ u, rangedAbove? root.visits v.id = some u →
    ∀ r r', v.node.range? = some r → u.range? = some r' → r'.1 ≤ r.1 ∧ r.2 ≤ r'.2
  /-- No offset lies in two contents of a node, not even at their ends. -/
  apart : ∀ v ∈ root.visits, (v.node.contents v.id).Pairwise fun b c =>
    ∀ offset, b.node.contains offset = true → c.node.contains offset = false
  /-- No content starts where the node starts. -/
  inset : ∀ v ∈ root.visits, ∀ c ∈ v.node.contents v.id, c.node.start? ≠ v.node.start?

section

variable {root : Tree}

theorem numbered_of_branch {id : Nat} {t : Tree} {b : Branch} (h : b ∈ branches id t) :
    (b.id, b.node) ∈ t.numberedChildren id := by
  rw [← map_branches]
  exact List.mem_map_of_mem h

/-- One step further down a path adds the number of a node that has a range. -/
theorem rangedPath_below {p : Place} {l : Link} {rest : List Link} (hp : p ∈ root.places)
    (hl : (⟨l.id, rest, l.node⟩ : Place) ∈ root.places) (habove : p.above = l :: rest) :
    rangedPath root.visits p.id =
      rangedPath root.visits l.id ++ if p.node.range?.isSome then [p.id] else [] := by
  have hancestors : ancestors root.visits p.id = l.id :: ancestors root.visits l.id := by
    rw [ancestors_place hp, habove, List.map_cons, ancestors_place hl]
  rw [rangedPath, hancestors, List.reverse_cons, List.filter_append, rangedPath,
    List.filter_cons, List.filter_nil, nodeAt?_place hp, Option.bind_some]

theorem contains_iff {t : Tree} {s e offset : Nat} (h : t.range? = some (s, e)) :
    t.contains (Int.ofNat offset) = true ↔ s ≤ offset ∧ offset ≤ e := by
  rw [contains, h]
  simp

theorem start?_of_range? {t : Tree} {s e : Nat} (h : t.range? = some (s, e)) :
    t.start? = some s := by
  unfold range? at h
  split at h
  · rename_i s' e' hs he
    cases h
    exact hs
  · cases h

theorem isPair_of_range? {t : Tree} {r : Nat × Nat} (h : t.range? = some r) :
    t.isPair = false := by
  cases t with
  | pair key value => cases h
  | _ => rfl

/-- A content is a place, and hangs in its node, a sequence, or in a pair of it. -/
theorem place_content {p : Place} (hp : p ∈ root.places) {c : Content}
    (hc : c ∈ p.node.contents p.id) :
    ∃ l rest, (⟨c.id, l :: rest, c.node⟩ : Place) ∈ root.places ∧
      (⟨l.id, rest, l.node⟩ : Place) ∈ root.places ∧ c.slot = l.node.slotBelow ∧
      c.node ∈ l.node.children ∧ (∀ info entries, l.node ≠ .map info entries) ∧
      (l = ⟨p.id, p.node, .entry⟩ ∧ rest = p.above ∨
        l.node.isPair = true ∧ rest = ⟨p.id, p.node, .entry⟩ :: p.above) := by
  rcases content_cases hc with
    ⟨info, entries, i, key, hnode, he, hslot, hid⟩ | ⟨info, items, hnode, hitem, hslot⟩
  · have hentry : ⟨.entry, i, .pair key (some c.node)⟩ ∈ branches p.id p.node := by
      rw [hnode]
      exact List.mem_map.2 ⟨_, he, rfl⟩
    have hpair := place_below hp hentry
    have hside : ⟨.value, c.id, c.node⟩ ∈ branches i (.pair key (some c.node)) := by
      rw [hid]
      simp [branches]
    refine ⟨_, _, place_below hpair hside, hpair, hslot, mem_children_of_branch hside, ?_,
      Or.inr ⟨rfl, rfl⟩⟩
    intro info entries heq
    cases heq
  · have hentry : ⟨.entry, c.id, c.node⟩ ∈ branches p.id p.node := by
      rw [hnode]
      exact List.mem_map.2 ⟨_, hitem, rfl⟩
    refine ⟨_, _, place_below hp hentry, hp, ?_, mem_children_of_branch hentry, ?_,
      Or.inl ⟨rfl, rfl⟩⟩
    · rw [hslot, hnode]
      rfl
    · intro info entries heq
      rw [hnode] at heq
      cases heq

/-- Where an offset leads from a node is below it. -/
theorem Leads.mem_ancestors {offset : Int} {id : Nat} {t : Tree} {cs : List Content}
    (h : Leads offset id t cs) {above : List Link} (hp : ⟨id, above, t⟩ ∈ root.places) :
    ∀ i ∈ id :: above.map (·.id), ∀ c ∈ cs, i ∈ ancestors root.visits c.id := by
  induction h generalizing above with
  | stop _ =>
    intro i _ c hc
    cases hc
  | @step id t c cs hfind _ ih =>
    obtain ⟨l, rest, hplace, -, -, -, -, hhow⟩ :=
      place_content hp (List.mem_of_find?_eq_some hfind)
    intro i hi c' hc'
    have hi' : i ∈ (l :: rest).map (·.id) := by
      rcases hhow with ⟨rfl, rfl⟩ | ⟨-, rfl⟩
      · exact hi
      · exact List.mem_cons_of_mem _ hi
    rcases List.mem_cons.1 hc' with rfl | hc'
    · rw [ancestors_place hplace]
      exact hi'
    · exact ih hplace i (List.mem_cons_of_mem _ hi') c' hc'

/-- The nearest range around a content is that of its node. -/
theorem rangedAbove?_content {p : Place} (hp : p ∈ root.places) {c : Content}
    (hc : c ∈ p.node.contents p.id) (hranged : p.node.range?.isSome = true) :
    rangedAbove? root.visits c.id = some p.node := by
  obtain ⟨l, rest, hplace, hl, -, -, -, hhow⟩ := place_content hp hc
  have hbelow := rangedAbove?_below hplace hl rfl
  rcases hhow with ⟨rfl, rfl⟩ | ⟨hpair, rfl⟩
  · rw [hbelow, if_pos hranged]
  · have hnone : l.node.range?.isSome = false := by
      cases hnode : l.node with
      | pair key value => rfl
      | _ => rw [hnode] at hpair; cases hpair
    have hmap := rangedAbove?_below (l := ⟨p.id, p.node, .entry⟩) hl hp rfl
    rw [hbelow, if_neg (by rw [hnone]; exact Bool.false_ne_true), hmap, if_pos hranged]

end

/-- How a node is reached from the root: on a path of its own, or as a pair of a map that is. -/
inductive Reached (root : Tree) (p : Place) : Prop where
  | content (cs : List Content) : p.node.isPair = false → Path 0 root cs p.id p.node →
      rangedPath root.visits p.id = 0 :: cs.map (·.id) → Reached root p
  | entry (cs : List Content) (i : Nat) (above : List Link) (info : Info) (entries : List Tree) :
      p.node.isPair = true → Path 0 root cs i (.map info entries) →
      ⟨i, above, .map info entries⟩ ∈ root.places → (p.id, p.node) ∈ numberFrom (i + 1) entries →
      rangedPath root.visits p.id = 0 :: cs.map (·.id) → Reached root p

namespace Spaced

variable {root : Tree}

theorem exists_range (h : root.Spaced) {p : Place} (hp : p ∈ root.places)
    (hpair : p.node.isPair = false) : ∃ s e, p.node.range? = some (s, e) ∧ s ≤ e :=
  h.ranged p.visit (visit_mem hp) hpair

theorem isPair_of_content {id : Nat} {t : Tree} {c : Content} (hc : c ∈ t.contents id) :
    t.isPair = false := by
  rcases content_cases hc with ⟨info, entries, i, key, rfl, -⟩ | ⟨info, items, rfl, -⟩
  · rfl
  · rfl

/-- A content is no pair: it hangs in a sequence or in a pair. -/
theorem isPair_content (h : root.Spaced) {p : Place} (hp : p ∈ root.places) {c : Content}
    (hc : c ∈ p.node.contents p.id) : c.node.isPair = false := by
  obtain ⟨l, rest, -, hl, -, hchild, hnot, -⟩ := place_content hp hc
  refine Bool.eq_false_iff.2 fun hpair => ?_
  obtain ⟨info, entries, hmap⟩ := (h.entries _ (visit_mem hl) c.node hchild).1 hpair
  exact hnot info entries hmap

theorem contains_of_content (h : root.Spaced) {p : Place} (hp : p ∈ root.places) {c : Content}
    (hc : c ∈ p.node.contents p.id) {offset : Nat}
    (hheld : c.node.contains (Int.ofNat offset) = true) :
    p.node.contains (Int.ofNat offset) = true := by
  obtain ⟨l, rest, hplace, -⟩ := place_content hp hc
  obtain ⟨s, e, hrange, -⟩ := h.exists_range hp (isPair_of_content hc)
  obtain ⟨s', e', hrange', -⟩ := h.exists_range hplace (h.isPair_content hp hc)
  have habove := rangedAbove?_content hp hc (by rw [hrange]; rfl)
  have hinside := h.inside _ (visit_mem hplace) p.node habove _ _ hrange' hrange
  rw [contains_iff hrange]
  rw [contains_iff hrange'] at hheld
  exact ⟨Nat.le_trans hinside.1 hheld.1, Nat.le_trans hheld.2 hinside.2⟩

/-- The content that holds an offset is the first one that does. -/
theorem find?_content (h : root.Spaced) {p : Place} (hp : p ∈ root.places) {c : Content}
    (hc : c ∈ p.node.contents p.id) {offset : Int} (hheld : c.node.contains offset = true) :
    (p.node.contents p.id).find? (·.node.contains offset) = some c := by
  have hapart := h.apart _ (visit_mem hp)
  obtain ⟨before, after, hsplit⟩ := List.append_of_mem hc
  rw [List.find?_eq_some_iff_append]
  refine ⟨by simpa using hheld, before, after, hsplit, ?_⟩
  intro b hb
  have hpair : ∀ offset, b.node.contains offset = true → c.node.contains offset = false := by
    rw [Place.visit, hsplit] at hapart
    exact (List.pairwise_append.1 hapart).2.2 b hb c List.mem_cons_self
  cases hfirst : b.node.contains offset with
  | false => rfl
  | true => exact absurd hheld (by rw [hpair offset hfirst]; exact Bool.false_ne_true)

/-- An offset that a node holds leads to it, and then on from it. -/
theorem leads_of_path (h : root.Spaced) {offset id i : Nat} {t u : Tree} {cs cs' : List Content}
    (hpath : Path id t cs i u) {above : List Link} (hp : ⟨id, above, t⟩ ∈ root.places)
    (hheld : u.contains (Int.ofNat offset) = true) (hon : Leads (Int.ofNat offset) i u cs') :
    Leads (Int.ofNat offset) id t (cs ++ cs') ∧ t.contains (Int.ofNat offset) = true := by
  induction hpath generalizing above with
  | here id t => exact ⟨hon, hheld⟩
  | @down id i t u c cs hc _ ih =>
    obtain ⟨l, rest, hplace, -⟩ := place_content hp hc
    obtain ⟨hleads, hchild⟩ := ih hplace hheld hon
    exact ⟨.step (h.find?_content hp hc hchild) hleads, h.contains_of_content hp hc hchild⟩

theorem leads_start (h : root.Spaced) {p : Place} (hp : p ∈ root.places) {s e : Nat}
    (hrange : p.node.range? = some (s, e)) : Leads (Int.ofNat s) p.id p.node [] := by
  refine .stop (List.find?_eq_none.2 ?_)
  intro c hc hheld
  obtain ⟨l, rest, hplace, -⟩ := place_content hp hc
  obtain ⟨s', e', hrange', -⟩ := h.exists_range hplace (h.isPair_content hp hc)
  have habove := rangedAbove?_content hp hc (by rw [hrange]; rfl)
  have hinside := h.inside _ (visit_mem hplace) p.node habove _ _ hrange' hrange
  have hlater := h.inset _ (visit_mem hp) c hc
  have hne : s' ≠ s := by
    intro heq
    apply hlater
    rw [start?_of_range? hrange', heq]
    exact (start?_of_range? hrange).symm
  have hbounds := (contains_iff hrange').1 hheld
  have hle : s ≤ s' := hinside.1
  omega

/-- A child of a node, at the end of its path. -/
theorem rangedPath_child (h : root.Spaced) {p : Place} {l : Link} {rest : List Link}
    (hp : p ∈ root.places) (hl : (⟨l.id, rest, l.node⟩ : Place) ∈ root.places)
    (habove : p.above = l :: rest) (hpair : p.node.isPair = false) :
    rangedPath root.visits p.id = rangedPath root.visits l.id ++ [p.id] := by
  obtain ⟨s, e, hrange, -⟩ := h.exists_range hp hpair
  rw [rangedPath_below hp hl habove, hrange, Option.isSome_some, if_pos rfl]

section

variable {p : Place} {l : Link} {rest : List Link}

theorem reached_entry (hp : p ∈ root.places) (hl : (⟨l.id, rest, l.node⟩ : Place) ∈ root.places)
    (habove : p.above = l :: rest) (hbranch : ⟨l.side, p.id, p.node⟩ ∈ branches l.id l.node)
    {info : Info} {entries : List Tree} (hnode : l.node = .map info entries)
    (hpair : p.node.isPair = true) (h : Reached root ⟨l.id, rest, l.node⟩) : Reached root p := by
  have hnone : p.node.range?.isSome = false := by
    cases ht : p.node with
    | pair key value => rfl
    | _ => rw [ht] at hpair; cases hpair
  have hnumbers : rangedPath root.visits p.id = rangedPath root.visits l.id := by
    rw [rangedPath_below hp hl habove, hnone, if_neg Bool.false_ne_true, List.append_nil]
  rw [hnode] at hl hbranch h
  cases h with
  | content cs _ hpath hids =>
    exact .entry cs l.id rest info entries hpair hpath hl (numbered_of_branch hbranch)
      (hnumbers.trans hids)
  | entry cs i above info' entries' hmap => cases hmap

theorem reached_value (h : root.Spaced) (hp : p ∈ root.places)
    (hl : (⟨l.id, rest, l.node⟩ : Place) ∈ root.places) (habove : p.above = l :: rest)
    (hbranch : ⟨l.side, p.id, p.node⟩ ∈ branches l.id l.node) (hside : l.side ≠ .key)
    {key value : Option Tree} (hnode : l.node = .pair key value) (hpair : p.node.isPair = false)
    (hreached : Reached root ⟨l.id, rest, l.node⟩) : Reached root p := by
  have hnumbers := h.rangedPath_child hp hl habove hpair
  rw [hnode] at hbranch hreached
  cases hreached with
  | content cs hnot => cases hnot
  | entry cs i above info entries _ hpath _ hentry hids =>
    -- The side is not the key's, so it is the value's.
    have hvalue : value = some p.node ∧ p.id = l.id + 1 + sizeOption key := by
      rcases List.mem_append.1 hbranch with hbranch | hbranch
      · obtain ⟨t, -, heq⟩ := List.mem_map.1 hbranch
        exact absurd (Branch.mk.inj heq).1.symm hside
      · obtain ⟨t, ht, heq⟩ := List.mem_map.1 hbranch
        obtain ⟨-, hid, rfl⟩ := Branch.mk.inj heq
        exact ⟨Option.mem_toList.1 ht, hid.symm⟩
    rcases hvalue with ⟨rfl, hid⟩
    have hc : (⟨.member (Tree.pair key (some p.node)).keyText?, p.id, p.node⟩ : Content) ∈
        (Tree.map info entries).contents i := by
      refine List.mem_filterMap.2 ⟨_, hentry, ?_⟩
      rw [hid]
      rfl
    refine .content _ hpair (hpath.snoc hc) ?_
    rw [hnumbers, hids, List.map_append]
    rfl

/-- The items of a sequence that is reached. -/
theorem reached_item (h : root.Spaced) (hp : p ∈ root.places)
    (hl : (⟨l.id, rest, l.node⟩ : Place) ∈ root.places) (habove : p.above = l :: rest)
    (hbranch : ⟨l.side, p.id, p.node⟩ ∈ branches l.id l.node) {info : Info} {items : List Tree}
    (hnode : l.node = .sequence info items) (hpair : p.node.isPair = false)
    (hreached : Reached root ⟨l.id, rest, l.node⟩) : Reached root p := by
  have hnumbers := h.rangedPath_child hp hl habove hpair
  rw [hnode] at hbranch hreached
  cases hreached with
  | content cs _ hpath hids =>
    have hc : (⟨.item, p.id, p.node⟩ : Content) ∈ (Tree.sequence info items).contents l.id :=
      List.mem_map.2 ⟨_, numbered_of_branch hbranch, rfl⟩
    refine .content _ hpair (hpath.snoc hc) ?_
    rw [hnumbers, hids, List.map_append]
    rfl
  | entry cs i above info' entries' hmap => cases hmap

end

theorem reached (h : root.Spaced) {p : Place} (hp : p ∈ root.places)
    (hkeys : ∀ l ∈ p.above, l.side ≠ .key) : Reached root p := by
  revert hkeys
  refine place_induction
    (motive := fun p => (∀ l ∈ p.above, l.side ≠ .key) → Reached root p) ?_ ?_ hp
  · intro _
    obtain ⟨s, e, hrange, -⟩ := h.exists_range (root_place root) h.top
    refine .content [] h.top (.here 0 root) ?_
    have hnode : nodeAt? root.visits 0 = some root := nodeAt?_place (root_place root)
    have hancestors : ancestors root.visits 0 = [] := ancestors_place (root_place root)
    simp [rangedPath, hancestors, hnode, hrange]
  · intro l rest p hp hl habove hbranch ih hkeys
    rw [habove] at hkeys
    have hparent := ih fun l' hl' => hkeys l' (List.mem_cons_of_mem _ hl')
    have hside : l.side ≠ .key := hkeys l List.mem_cons_self
    have hchild : p.node ∈ l.node.children := mem_children_of_branch hbranch
    have hentries := h.entries _ (visit_mem hl) p.node hchild
    have hnot : (∀ info entries, l.node ≠ .map info entries) → p.node.isPair = false := by
      intro hnomap
      refine Bool.eq_false_iff.2 fun hpair => ?_
      obtain ⟨info, entries, hmap⟩ := hentries.1 hpair
      exact hnomap info entries hmap
    cases hnode : l.node with
    | map info entries =>
      exact reached_entry hp hl habove hbranch hnode (hentries.2 ⟨info, entries, hnode⟩) hparent
    | pair key value =>
      refine h.reached_value hp hl habove hbranch hside hnode (hnot ?_) hparent
      rw [hnode]
      intro info entries heq
      cases heq
    | sequence info items =>
      refine h.reached_item hp hl habove hbranch hnode (hnot ?_) hparent
      rw [hnode]
      intro info entries heq
      cases heq
    | scalar info value raw style =>
      rw [hnode] at hchild
      cases hchild
    | «alias» info anchor target =>
      rw [hnode] at hchild
      cases hchild

end Spaced

end Tree
end YamlServer
