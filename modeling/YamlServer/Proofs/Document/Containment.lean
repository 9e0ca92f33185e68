import Mathlib.Data.List.Basic
import YamlServer.Document.Position
import YamlServer.Proofs.Document.Layout
import YamlServer.Proofs.Tree.Contents

/-!
# The innermost node around an offset

The search for the node around an offset does not look into a node whose range does not hold the
offset. Where ranges nest, nothing is lost by that: what lies below such a node does not hold the
offset either. A node without a range is looked into in any case, and the nearest range around a
node may be further up than its parent.

* `Tree.rangeAround?`: the nearest range along a chain of enclosing nodes.
* `Document.containing?_eq_lastHolding?`: the last node of the walk that holds the offset.
-/

namespace YamlServer

namespace Tree

/-! ## The nearest range -/

def rangeAround? (above : List Link) : Option (Nat × Nat) :=
  above.findSome? (·.node.range?)

@[simp]
theorem rangeAround?_cons (l : Link) (above : List Link) :
    rangeAround? (l :: above) = l.node.range?.or (rangeAround? above) := by
  rw [rangeAround?, List.findSome?_cons]
  cases l.node.range? with
  | none => rfl
  | some r => rfl

/-- Looking ranges up through the numbers of parents gives the same one. -/
theorem range?_rangedAbove? {t : Tree} {p : Place} (hp : p ∈ t.places) :
    (rangedAbove? t.visits p.id).bind range? = rangeAround? p.above := by
  refine place_induction
    (motive := fun p => (rangedAbove? t.visits p.id).bind range? = rangeAround? p.above) ?_ ?_ hp
  · rw [rangedAbove?_root]
    rfl
  · intro l rest p hp hl habove _ ih
    rw [rangedAbove?_below hp hl habove, habove, rangeAround?_cons, ← ih]
    cases hrange : l.node.range? with
    | none => simp
    | some r => simp [hrange]

/-- Every range lies inside the nearest range around it. -/
def RangesNest (places : List Place) : Prop :=
  ∀ p ∈ places, ∀ r r', p.node.range? = some r → rangeAround? p.above = some r' →
    r'.1 ≤ r.1 ∧ r.2 ≤ r'.2

theorem RangesNest.branch {above : List Link} {id : Nat} {t : Tree} {b : Branch}
    (h : RangesNest (placesFrom above id t)) (hb : b ∈ branches id t) :
    RangesNest (placesFrom (⟨id, t, b.side⟩ :: above) b.id b.node) := by
  intro p hp
  exact h p (mem_placesFrom_of_branch hb hp)

/-- All ranges of a tree lie inside the nearest range around it. -/
theorem RangesNest.inside {above : List Link} {id : Nat} {t : Tree} {p : Place} {r r' : Nat × Nat}
    (h : RangesNest (placesFrom above id t)) (haround : rangeAround? above = some r')
    (hp : p ∈ placesFrom above id t) (hr : p.node.range? = some r) : r'.1 ≤ r.1 ∧ r.2 ≤ r'.2 := by
  induction t using induction_children generalizing above id r' with
  | step t ih =>
    rw [placesFrom_eq, List.mem_cons] at hp
    rcases hp with rfl | hp
    · exact h _ (top_mem_placesFrom above id t) r r' hr haround
    · rcases List.mem_flatMap.1 hp with ⟨b, hb, hp⟩
      have hbelow : ∀ s, rangeAround? (⟨id, t, b.side⟩ :: above) = some s →
          s.1 ≤ r.1 ∧ r.2 ≤ s.2 := fun s hs =>
        ih b.node (mem_children_of_branch hb) (h.branch hb) hs hp
      -- The nearest range around the branch is that of the node, or else the one around the node.
      rw [rangeAround?_cons] at hbelow
      cases hrange : t.range? with
      | none =>
        rw [hrange] at hbelow
        exact hbelow r' haround
      | some s =>
        rw [hrange] at hbelow
        have hs := h _ (top_mem_placesFrom above id t) s r' hrange haround
        have hrs := hbelow s rfl
        exact ⟨Nat.le_trans hs.1 hrs.1, Nat.le_trans hrs.2 hs.2⟩

theorem contains_eq {t : Tree} {r : Nat × Nat} (h : t.range? = some r) (offset : Int) :
    t.contains offset = (decide ((r.1 : Int) ≤ offset) && decide (offset ≤ (r.2 : Int))) := by
  rw [contains, h]
  rfl

theorem contains_of_range?_none {t : Tree} (h : t.range? = none) (offset : Int) :
    t.contains offset = false := by
  rw [contains, h]

theorem contains_of_inside {t u : Tree} {r r' : Nat × Nat} {offset : Int} (hr : t.range? = some r)
    (hr' : u.range? = some r') (hinside : r'.1 ≤ r.1 ∧ r.2 ≤ r'.2) (h : t.contains offset = true) :
    u.contains offset = true := by
  rw [contains_eq hr, Bool.and_eq_true, decide_eq_true_eq, decide_eq_true_eq] at h
  rw [contains_eq hr', Bool.and_eq_true, decide_eq_true_eq, decide_eq_true_eq]
  omega

/-- Below a node whose range does not hold an offset, no node holds it. -/
theorem RangesNest.passed {above : List Link} {id : Nat} {t : Tree} {offset : Int}
    (h : RangesNest (placesFrom above id t)) (hranged : t.range?.isSome = true)
    (hmiss : t.contains offset = false) :
    ∀ p ∈ placesFrom above id t, p.node.contains offset = false := by
  rcases Option.isSome_iff_exists.1 hranged with ⟨r', hr'⟩
  intro p hp
  rw [placesFrom_eq, List.mem_cons] at hp
  rcases hp with rfl | hp
  · exact hmiss
  · rcases List.mem_flatMap.1 hp with ⟨b, hb, hp⟩
    cases hr : p.node.range? with
    | none => exact contains_of_range?_none hr offset
    | some r =>
      have haround : rangeAround? (⟨id, t, b.side⟩ :: above) = some r' := by
        rw [rangeAround?_cons, hr']
        rfl
      have hinside := (h.branch hb).inside haround hp hr
      refine Bool.eq_false_iff.2 fun hheld => ?_
      rw [contains_of_inside hr hr' hinside hheld] at hmiss
      cases hmiss

/-! ## The search -/

theorem containingList_eq (offset : Int) (best : Option Nat) (id : Nat) (ts : List Tree) :
    containingList offset best id ts =
      (numberFrom id ts).foldl (fun best c => containingFrom offset best c.1 c.2) best := by
  induction ts generalizing best id with
  | nil => rfl
  | cons t ts ih => rw [containingList, ih, numberFrom, List.foldl_cons]

/-- The search at a node: it is passed over, or the search goes on through its branches. -/
theorem containingFrom_eq (offset : Int) (best : Option Nat) (id : Nat) (t : Tree) :
    containingFrom offset best id t =
      if t.range?.isSome && !t.contains offset then best
      else (branches id t).foldl (fun best b => containingFrom offset best b.id b.node)
        (if t.range?.isSome then some id else best) := by
  -- A leaf without a range does not hold the offset and keeps the best so far.
  have hleaf : ∀ u : Tree, (if u.contains offset then some id else best) =
      if u.range?.isSome && !u.contains offset then best
      else if u.range?.isSome then some id else best := by
    intro u
    cases hrange : u.range? with
    | none => simp [contains_of_range?_none hrange]
    | some r => cases u.contains offset <;> rfl
  cases t with
  | scalar info value raw style =>
    simpa [containingFrom, branches, numberedChildren, children, numberFrom] using hleaf _
  | «alias» info anchor target =>
    simpa [containingFrom, branches, numberedChildren, children, numberFrom] using hleaf _
  | pair key value =>
    have hrange : (Tree.pair key value).range? = none := rfl
    cases key with
    | none => cases value <;> simp [containingFrom, containingOption, branches, hrange]
    | some key => cases value <;> simp [containingFrom, containingOption, branches, hrange]
  | map info entries =>
    simp [containingFrom, containingList_eq, branches, numberedChildren, children, List.foldl_map]
  | sequence info items =>
    simp [containingFrom, containingList_eq, branches, numberedChildren, children, List.foldl_map]

def takeHolding (offset : Int) (best : Option Nat) (p : Place) : Option Nat :=
  if p.node.contains offset then some p.id else best

theorem foldl_takeHolding_of_miss {offset : Int} {ps : List Place} (best : Option Nat)
    (h : ∀ p ∈ ps, p.node.contains offset = false) : ps.foldl (takeHolding offset) best = best := by
  induction ps with
  | nil => rfl
  | cons p ps ih =>
    have hp := h p List.mem_cons_self
    rw [List.foldl_cons, takeHolding, hp, if_neg Bool.false_ne_true]
    exact ih fun q hq => h q (List.mem_cons_of_mem _ hq)

/-- Where ranges nest, the search is a pass over all nodes. -/
theorem containingFrom_eq_foldl {above : List Link} {id : Nat} {t : Tree}
    (h : RangesNest (placesFrom above id t)) (offset : Int) (best : Option Nat) :
    containingFrom offset best id t = (placesFrom above id t).foldl (takeHolding offset) best := by
  induction t using induction_children generalizing above id best with
  | step t ih =>
    rw [containingFrom_eq]
    split
    · rename_i hpass
      rw [Bool.and_eq_true, Bool.not_eq_true'] at hpass
      exact (foldl_takeHolding_of_miss best (h.passed hpass.1 hpass.2)).symm
    · rename_i hpass
      -- The node is taken if it has a range, since that holds the offset here.
      have htop : takeHolding offset best ⟨id, above, t⟩ =
          if t.range?.isSome then some id else best := by
        rw [takeHolding]
        cases hrange : t.range? with
        | none => rw [contains_of_range?_none hrange]; rfl
        | some r =>
          rw [hrange] at hpass
          have hheld : t.contains offset = true := by simpa using hpass
          rw [hheld]
          rfl
      rw [placesFrom_eq, List.foldl_cons, htop, List.foldl_flatMap]
      refine List.foldl_ext _ _ _ ?_
      intro best b hb
      exact ih b.node (mem_children_of_branch hb) (h.branch hb) best

end Tree

namespace Document

open YamlServer.Tree

/-- Every range of the document lies inside the nearest range above it. -/
def RangesNest (d : Document) : Prop :=
  ∀ v ∈ d.visits, ∀ u ∈ rangedAbove? d.visits v.id, ∀ r ∈ v.node.range?, ∀ r' ∈ u.range?,
    r'.1 ≤ r.1 ∧ r.2 ≤ r'.2

instance (d : Document) : Decidable d.RangesNest :=
  inferInstanceAs (Decidable (∀ v ∈ d.visits, ∀ u ∈ rangedAbove? d.visits v.id,
    ∀ r ∈ v.node.range?, ∀ r' ∈ u.range?, r'.1 ≤ r.1 ∧ r.2 ≤ r'.2))

def lastHolding? (d : Document) (offset : Int) : Option Nat :=
  ((d.visits.filter (·.node.contains offset)).getLast?).map (·.id)

/-- The search is a loop with a stack. A node is taken if it holds the offset, and entered unless it
has a range that does not. -/
theorem containing?_eq_drain (d : Document) (offset : Int) :
    d.containing? offset = Place.branching.drain (m := Id)
      (fun best p => (takeHolding offset best p,
        !(p.node.range?.isSome && !p.node.contains offset)))
      none (d.root.toList.map fun t => ⟨0, [], t⟩) := by
  have hdown : ∀ (best : Option Nat) (p : Place), containingFrom offset best p.id p.node =
      if !(p.node.range?.isSome && !p.node.contains offset) then
        p.parts.foldl (fun best p => containingFrom offset best p.id p.node)
          (takeHolding offset best p)
      else takeHolding offset best p := by
    intro best p
    rw [containingFrom_eq, takeHolding]
    cases hrange : p.node.range? with
    | none =>
      have hheld := contains_of_range?_none hrange offset
      simp [hheld, Place.parts, List.foldl_map]
    | some r => cases hheld : p.node.contains offset <;> simp [Place.parts, List.foldl_map]
  rw [Place.branching.drain_eq_foldl hdown, containing?]
  cases d.root <;> rfl

variable {d : Document}

theorem RangesNest.places (h : d.RangesNest) {root : Tree} (hroot : d.root = some root) :
    Tree.RangesNest root.places := by
  have hvisits := visits_of_root hroot
  intro p hp r r' hr hr'
  rw [← range?_rangedAbove? hp] at hr'
  rcases Option.bind_eq_some_iff.1 hr' with ⟨u, hu, hr'⟩
  have hv : p.visit ∈ d.visits := by
    rw [hvisits]
    exact visit_mem hp
  refine h p.visit hv u ?_ r hr r' hr'
  rw [hvisits]
  exact hu

/-- A pass over the nodes ends with the last one that holds the offset. -/
theorem foldl_takeHolding (offset : Int) (best : Option Nat) (ps : List Place) :
    ps.foldl (takeHolding offset) best =
      ((((ps.map Place.visit).filter (·.node.contains offset)).getLast?).map (·.id)).or best := by
  induction ps generalizing best with
  | nil => rfl
  | cons p ps ih =>
    rw [List.foldl_cons, ih, takeHolding, List.map_cons, List.filter_cons]
    by_cases hp : p.node.contains offset = true
    · rw [if_pos hp, Place.visit, if_pos hp, List.getLast?_cons]
      cases ((ps.map Place.visit).filter (·.node.contains offset)).getLast? <;> rfl
    · rw [if_neg hp, Place.visit, if_neg hp]

theorem lt_of_mem_ancestors {v : Visit} (hv : v ∈ d.visits) {id : Nat}
    (h : id ∈ ancestors d.visits v.id) : id < v.id := by
  cases hroot : d.root with
  | none =>
    rw [visits, hroot] at hv
    cases hv
  | some root =>
    have hvisits := visits_of_root hroot
    rw [hvisits] at hv h
    rw [visits_eq_places] at hv
    rcases List.mem_map.1 hv with ⟨p, hp, rfl⟩
    have hchain : ancestors root.visits p.id = p.above.map (·.id) := ancestors_place hp
    rw [Place.visit, hchain] at h
    rcases List.mem_map.1 h with ⟨l, hl, rfl⟩
    exact lt_of_mem_above hp hl

theorem pairwise_id_visits (d : Document) : d.visits.Pairwise fun v w => v.id < w.id := by
  cases hroot : d.root with
  | none =>
    rw [visits, hroot]
    exact List.Pairwise.nil
  | some root =>
    have hids : (root.visits.map (·.id)).Pairwise (· < ·) := by
      rw [map_id_visits]
      exact List.pairwise_lt_range'
    rw [visits, hroot]
    exact List.pairwise_map.1 hids

/-- No node behind the last one that holds an offset holds it. -/
theorem contains_of_lastHolding? {offset : Int} {id : Nat} (h : d.lastHolding? offset = some id)
    {v : Visit} (hv : v ∈ d.visits) (hlt : id < v.id) : v.node.contains offset = false := by
  refine Bool.eq_false_iff.2 fun hheld => ?_
  rcases Option.map_eq_some_iff.1 h with ⟨last, hlast, rfl⟩
  rcases List.getLast?_eq_some_iff.1 hlast with ⟨front, hsplit⟩
  have hmem : v ∈ front ++ [last] := by
    rw [← hsplit]
    exact List.mem_filter.2 ⟨hv, hheld⟩
  have hsorted := (pairwise_id_visits d).filter (·.node.contains offset)
  rw [hsplit] at hsorted
  rcases List.mem_append.1 hmem with hfront | hlast
  · have hbefore := (List.pairwise_append.1 hsorted).2.2 v hfront last List.mem_cons_self
    omega
  · rw [List.mem_singleton.1 hlast] at hlt
    exact Nat.lt_irrefl _ hlt

theorem containing?_eq (h : d.RangesNest) (offset : Int) :
    d.containing? offset = d.lastHolding? offset := by
  cases hroot : d.root with
  | none => simp [containing?, lastHolding?, visits, hroot, visitsOf]
  | some root =>
    have hsearch := containingFrom_eq_foldl (h.places hroot) offset none
    rw [foldl_takeHolding, Option.or_none] at hsearch
    simp only [containing?, lastHolding?, visits, hroot, visitsOf]
    rw [hsearch, visits_eq_places]
    rfl

theorem containing?_eq_none_iff (h : d.RangesNest) (offset : Int) :
    d.containing? offset = none ↔ ∀ v ∈ d.visits, v.node.contains offset = false := by
  rw [containing?_eq h, lastHolding?, Option.map_eq_none_iff, List.getLast?_eq_none_iff,
    List.filter_eq_nil_iff]
  simp only [Bool.not_eq_true]

/-- Where ranges nest, the search finds the last node of the walk whose range holds the offset, and
none if there is no such node. No node below the one that is found holds the offset. -/
theorem containing?_eq_lastHolding? (h : d.RangesNest) (offset : Int) :
    d.containing? offset = d.lastHolding? offset ∧
      (d.containing? offset = none ↔ ∀ v ∈ d.visits, v.node.contains offset = false) ∧
      ∀ id, d.containing? offset = some id → ∀ v ∈ d.visits, id ∈ ancestors d.visits v.id →
        v.node.contains offset = false := by
  refine ⟨containing?_eq h offset, containing?_eq_none_iff h offset, ?_⟩
  intro id hid v hv habove
  rw [containing?_eq h] at hid
  exact contains_of_lastHolding? hid hv (lt_of_mem_ancestors hv habove)

/-- The map `a: {b: 1}`, `c: [2]` over three lines, where the value of `a` ends where the key `c`
starts and the sequence has no range. -/
def touchingDocument : Document :=
  let scalar (s e : Nat) (raw : String) : Tree :=
    .scalar ⟨some s, some e, none, none, none⟩ (.str raw) raw none
  Document.ofTree (some (.map ⟨some 0, some 15, none, none, none⟩
    [.pair (some (scalar 0 1 "a")) (some (.map ⟨some 5, some 10, none, none, none⟩
      [.pair (some (scalar 5 6 "b")) (some (scalar 8 9 "1"))])),
     .pair (some (scalar 10 11 "c")) (some (.sequence ⟨none, none, none, none, none⟩
      [scalar 13 14 "2"]))]))

theorem containing?_eq_lastHolding?_touching :
    touchingDocument.RangesNest ∧ touchingDocument.containing? 10 = some 8 ∧
      touchingDocument.containing? 13 = some 10 ∧ touchingDocument.containing? 16 = none ∧
      ∀ v ∈ touchingDocument.visits, 8 ∈ ancestors touchingDocument.visits v.id →
        v.node.contains 10 = false := by
  have hnest : touchingDocument.RangesNest := by decide +kernel
  have hkey : touchingDocument.lastHolding? 10 = some 8 := by decide +kernel
  have hitem : touchingDocument.lastHolding? 13 = some 10 := by decide +kernel
  have hnone : touchingDocument.lastHolding? 16 = none := by decide +kernel
  have hat := fun offset => (containing?_eq_lastHolding? hnest offset).1
  exact ⟨hnest, (hat 10).trans hkey, (hat 13).trans hitem, (hat 16).trans hnone,
    (containing?_eq_lastHolding? hnest 10).2.2 8 ((hat 10).trans hkey)⟩

end Document
end YamlServer
