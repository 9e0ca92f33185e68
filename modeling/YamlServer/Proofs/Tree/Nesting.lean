import YamlServer.Proofs.InOrder
import YamlServer.Proofs.Tree.Place

/-!
# Ranges inside ranges

A tree is nested when every node but a pair has a range and holds the ranged nodes below it in
order. Pairs have no range, so for a map these are the keys and the values of its pairs in turn.

* `Tree.rangedAbove?`: the nearest node above a node that has a range.
* `Tree.Nested.sorted_starts`: along a walk the starts never decrease.
-/

namespace YamlServer
namespace Tree

def extent (t : Tree) : Nat × Nat :=
  (t.start?.getD 0, t.stop?.getD 0)

def entry (p : Tree × Tree) : Tree :=
  .pair (some p.1) (some p.2)

def sides (pairs : List (Tree × Tree)) : List Tree :=
  pairs.flatMap fun p => [p.1, p.2]

/-- Every node but a pair has a range, and holds the ranged nodes below it in order. -/
inductive Nested : Tree → Prop where
  | scalar (info : Info) (value : Value) (raw : String) (style : Option Yaml.Style) (s e : Nat) :
      info.start = some s → info.stop = some e → s ≤ e → Nested (.scalar info value raw style)
  | alias (info : Info) (anchor : String) (target : Option Nat) (s e : Nat) :
      info.start = some s → info.stop = some e → s ≤ e → Nested (.alias info anchor target)
  | sequence (info : Info) (items : List Tree) (s e : Nat) :
      info.start = some s → info.stop = some e → InOrder extent s e items →
      (∀ t ∈ items, Nested t) → Nested (.sequence info items)
  | map (info : Info) (pairs : List (Tree × Tree)) (s e : Nat) :
      info.start = some s → info.stop = some e → InOrder extent s e (sides pairs) →
      (∀ t ∈ sides pairs, Nested t) → Nested (.map info (pairs.map entry))

variable {t : Tree}

theorem extent_of_range? {r : Nat × Nat} (h : t.range? = some r) : t.extent = r := by
  unfold range? at h
  split at h
  · rename_i s e hs he
    cases h
    simp [extent, hs, he]
  · cases h

namespace Nested

/-- The range of a nested node is its extent. -/
theorem range (h : t.Nested) :
    t.start? = some t.extent.1 ∧ t.stop? = some t.extent.2 ∧ t.extent.1 ≤ t.extent.2 := by
  cases h with
  | scalar info value raw style s e hs he hle =>
    simpa [extent, start?, stop?, info?, hs, he] using hle
  | «alias» info anchor target s e hs he hle =>
    simpa [extent, start?, stop?, info?, hs, he] using hle
  | sequence info items s e hs he hitems _ =>
    simpa [extent, start?, stop?, info?, hs, he] using hitems.le
  | map info pairs s e hs he hpairs _ =>
    simpa [extent, start?, stop?, info?, hs, he] using hpairs.le

theorem range?_eq (h : t.Nested) : t.range? = some t.extent := by
  rcases h.range with ⟨hs, he, -⟩
  simp [range?, hs, he]

end Nested

theorem mem_sides {p : Tree × Tree} {pairs : List (Tree × Tree)} (h : p ∈ pairs) :
    p.1 ∈ sides pairs ∧ p.2 ∈ sides pairs :=
  ⟨List.mem_flatMap.2 ⟨p, h, List.mem_cons_self⟩,
    List.mem_flatMap.2 ⟨p, h, List.mem_cons_of_mem _ List.mem_cons_self⟩⟩

theorem key_le_value {lo hi : Nat} {p : Tree × Tree} {pairs : List (Tree × Tree)}
    (h : InOrder extent lo hi (sides pairs)) (hp : p ∈ pairs) : p.1.extent.2 ≤ p.2.extent.1 := by
  -- The two sides of a pair stand next to each other between those of other pairs.
  rcases List.append_of_mem hp with ⟨before, after, rfl⟩
  have hordered := h.ordered
  simp only [sides, List.flatMap_append, List.flatMap_cons] at hordered
  have hpair := (List.pairwise_append.1 (List.pairwise_append.1 hordered).2.1).1
  exact (List.pairwise_cons.1 hpair).1 p.2 List.mem_cons_self

/-- A value stops before the keys of the later pairs start. -/
theorem pairwise_value_key {lo hi : Nat} {pairs : List (Tree × Tree)}
    (h : InOrder extent lo hi (sides pairs)) :
    pairs.Pairwise fun p q => p.2.extent.2 ≤ q.1.extent.1 := by
  have hordered := List.pairwise_flatMap.1 h.ordered
  refine hordered.2.imp ?_
  intro p q hpq
  exact hpq p.2 (List.mem_cons_of_mem _ List.mem_cons_self) q.1 List.mem_cons_self

/-! ## The nearest range around a node -/

def rangedAbove? (visits : List Visit) (id : Nat) : Option Tree :=
  (ancestors visits id).findSome? fun a => (nodeAt? visits a).filter (·.range?.isSome)

theorem rangedAbove?_root (t : Tree) : rangedAbove? t.visits 0 = none := by
  simp [rangedAbove?, ancestors_place (root_place t)]

/-- It is the parent, or what it is for the parent if that has no range. -/
theorem rangedAbove?_below {p : Place} {l : Link} {rest : List Link} (hp : p ∈ t.places)
    (hl : (⟨l.id, rest, l.node⟩ : Place) ∈ t.places) (habove : p.above = l :: rest) :
    rangedAbove? t.visits p.id =
      if l.node.range?.isSome then some l.node else rangedAbove? t.visits l.id := by
  have hnode : nodeAt? t.visits l.id = some l.node := nodeAt?_place hl
  have hancestors : ancestors t.visits l.id = rest.map (·.id) := ancestors_place hl
  rw [rangedAbove?, ancestors_place hp, habove, List.map_cons, List.findSome?_cons, hnode,
    Option.filter_some, rangedAbove?, hancestors]
  cases l.node.range?.isSome with
  | true => rfl
  | false => rfl

/-- A node whose range lies inside another one's. -/
def Inside (t u : Tree) : Prop :=
  u.extent.1 ≤ t.extent.1 ∧ t.extent.2 ≤ u.extent.2

theorem Inside.trans {t u w : Tree} (h : t.Inside u) (h' : u.Inside w) : t.Inside w :=
  ⟨Nat.le_trans h'.1 h.1, Nat.le_trans h.2 h'.2⟩

/-- How a node lies below a nested root: it is nested itself, or a pair of nested nodes, inside the
root and inside the nearest range above it. -/
inductive Settled (root : Tree) (around : Option Tree) : Tree → Prop where
  | ranged (t : Tree) : t.Nested → t.Inside root → (∀ u, around = some u → t.Inside u) →
      Settled root around t
  | pair (key value : Tree) : key.Nested → value.Nested → key.extent.2 ≤ value.extent.1 →
      key.Inside root → value.Inside root →
      (∀ u, around = some u → key.Inside u ∧ value.Inside u) →
      Settled root around (.pair (some key) (some value))

/-- A child of a nested node lies inside it. -/
theorem Nested.settled_child {root u c : Tree} (h : u.Nested) (hroot : u.Inside root)
    (hc : c ∈ u.children) : Settled root (some u) c := by
  cases h with
  | scalar info value raw style s e hs he hle => cases hc
  | «alias» info anchor target s e hs he hle => cases hc
  | sequence info items s e hs he hitems hnested =>
    have hu : (Tree.sequence info items).extent = (s, e) := by
      simp [extent, start?, stop?, info?, hs, he]
    have hmem := hitems.inside c hc
    have hinside : c.Inside (.sequence info items) := by
      rw [Inside, hu]
      exact ⟨hmem.1, hmem.2.2⟩
    refine Settled.ranged c (hnested c hc) (hinside.trans hroot) ?_
    intro w hw
    cases hw
    exact hinside
  | map info pairs s e hs he hpairs hnested =>
    have hu : (Tree.map info (pairs.map entry)).extent = (s, e) := by
      simp [extent, start?, stop?, info?, hs, he]
    rcases List.mem_map.1 hc with ⟨p, hp, rfl⟩
    have hsides := mem_sides hp
    -- A pair has no range of its own, so its sides lie in the map directly.
    have hinside : ∀ side ∈ sides pairs, side.Inside (.map info (pairs.map entry)) := by
      intro side hside
      have hmem := hpairs.inside side hside
      rw [Inside, hu]
      exact ⟨hmem.1, hmem.2.2⟩
    have hkey := hinside p.1 hsides.1
    have hvalue := hinside p.2 hsides.2
    refine Settled.pair p.1 p.2 (hnested _ hsides.1) (hnested _ hsides.2)
      (key_le_value hpairs hp) (hkey.trans hroot) (hvalue.trans hroot) ?_
    intro w hw
    cases hw
    exact ⟨hkey, hvalue⟩

/-- Every node below a nested root is settled. -/
theorem Nested.settled {root : Tree} (h : root.Nested) {p : Place} (hp : p ∈ root.places) :
    Settled root (rangedAbove? root.visits p.id) p.node := by
  -- Down the chain: the nearest range above a node is its parent's, or the one above its parent.
  refine place_induction
    (motive := fun p => Settled root (rangedAbove? root.visits p.id) p.node) ?_ ?_ hp
  · refine Settled.ranged root h ⟨Nat.le_refl _, Nat.le_refl _⟩ ?_
    intro u hu
    rw [rangedAbove?_root] at hu
    cases hu
  · intro l rest p hp hl habove hbranch ih
    have hchild : p.node ∈ l.node.children := mem_children_of_branch hbranch
    rw [rangedAbove?_below hp hl habove]
    -- The parent is nested itself, or a pair whose sides are settled with it.
    generalize hnode : l.node = parent at ih hchild
    cases ih with
    | ranged t hnested hroot _ =>
      rw [hnested.range?_eq, Option.isSome_some, if_pos rfl]
      exact hnested.settled_child hroot hchild
    | pair key value hkey hvalue hle hkeyRoot hvalueRoot haround =>
      have hrange : (Tree.pair (some key) (some value)).range?.isSome = false := rfl
      rw [hrange, if_neg Bool.false_ne_true]
      rcases List.mem_cons.1 hchild with heq | hchild
      · rw [heq]
        exact Settled.ranged key hkey hkeyRoot fun u hu => (haround u hu).1
      · rw [List.mem_singleton.1 hchild]
        exact Settled.ranged value hvalue hvalueRoot fun u hu => (haround u hu).2

/-! ## Starts along a walk -/

def starts (t : Tree) : List Nat :=
  t.walk.filterMap start?

theorem starts_eq (t : Tree) : t.starts = t.start?.toList ++ t.children.flatMap starts := by
  rw [starts, walk_eq, List.filterMap_cons, List.filterMap_flatMap]
  cases t.start? with
  | none => rfl
  | some s => rfl

@[simp]
theorem starts_entry (p : Tree × Tree) : (entry p).starts = p.1.starts ++ p.2.starts := by
  rw [starts_eq]
  simp [entry, start?, info?, children]

theorem flatMap_starts_entries (pairs : List (Tree × Tree)) :
    (pairs.map entry).flatMap starts = (sides pairs).flatMap starts := by
  induction pairs with
  | nil => rfl
  | cons p pairs ih =>
    simp only [List.map_cons, List.flatMap_cons, starts_entry, ih, sides,
      List.cons_append, List.nil_append, List.append_assoc]

/-- Along the walk of a nested tree the starts never decrease. -/
theorem Nested.sorted_starts (h : t.Nested) :
    t.starts.Pairwise (· ≤ ·) ∧ ∀ n ∈ t.starts, t.extent.1 ≤ n ∧ n ≤ t.extent.2 := by
  -- A node starts before everything in the row of ranged nodes below it.
  have hrow : ∀ (u : Tree) (row : List Tree) (s e : Nat), u.extent = (s, e) →
      u.starts = s :: row.flatMap starts → InOrder extent s e row →
      (∀ c ∈ row, c.starts.Pairwise (· ≤ ·) ∧ ∀ n ∈ c.starts, c.extent.1 ≤ n ∧ n ≤ c.extent.2) →
      u.starts.Pairwise (· ≤ ·) ∧ ∀ n ∈ u.starts, u.extent.1 ≤ n ∧ n ≤ u.extent.2 := by
    intro u row s e hextent hstarts hrow hbelow
    rcases hrow.sorted_flatMap hbelow with ⟨hsorted, hinside⟩
    rw [hstarts, hextent]
    refine ⟨List.pairwise_cons.2 ⟨fun n hn => (hinside n hn).1, hsorted⟩, ?_⟩
    intro n hn
    rcases List.mem_cons.1 hn with rfl | hn
    · exact ⟨Nat.le_refl _, hrow.le⟩
    · exact hinside n hn
  have hleaf : ∀ c ∈ ([] : List Tree), c.starts.Pairwise (· ≤ ·) ∧
      ∀ n ∈ c.starts, c.extent.1 ≤ n ∧ n ≤ c.extent.2 := by
    intro c hc
    cases hc
  induction h with
  | scalar info value raw style s e hs he hle =>
    refine hrow _ [] s e ?_ ?_ (inOrder_nil.2 hle) hleaf
    · simp [extent, start?, stop?, info?, hs, he]
    · simp [starts_eq, start?, info?, hs, children]
  | «alias» info anchor target s e hs he hle =>
    refine hrow _ [] s e ?_ ?_ (inOrder_nil.2 hle) hleaf
    · simp [extent, start?, stop?, info?, hs, he]
    · simp [starts_eq, start?, info?, hs, children]
  | sequence info items s e hs he hitems _ ih =>
    refine hrow _ items s e ?_ ?_ hitems ih
    · simp [extent, start?, stop?, info?, hs, he]
    · rw [starts_eq]
      simp [start?, info?, hs, children]
  -- The pairs of a map have no starts: those of their sides come in turn.
  | map info pairs s e hs he hpairs _ ih =>
    refine hrow _ (sides pairs) s e ?_ ?_ hpairs ih
    · simp [extent, start?, stop?, info?, hs, he]
    · rw [starts_eq, ← flatMap_starts_entries]
      simp [start?, info?, hs, children]

end Tree
end YamlServer
