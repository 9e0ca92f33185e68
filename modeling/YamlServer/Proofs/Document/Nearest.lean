import YamlServer.Document.Position
import YamlServer.Proofs.Document.Layout
import YamlServer.Proofs.Text.Lines
import YamlServer.Proofs.Tree.Contents

/-!
# The nearest node to an offset

The scan for the node that ends nearest to an offset takes a node only if it starts no earlier than
the one taken before. Where the starts never decrease along the walk this takes nothing away, and
the scan ends with the last of the nearest nodes.

From there the search goes up, in a loop without a bound, to a node that starts in the column of the
cursor. Parents have smaller numbers, so the loop ends. It passes pairs, but it ends at any other
node without a range, wherever that would start.

* `Document.closest?_eq_firstUp?`: the nearest node by these two.
-/

namespace YamlServer

open Text

namespace Tree

/-! ## Distances -/

def distance? (offset : Int) (t : Tree) : Option Nat :=
  t.range?.map fun r => ((r.2 : Int) - offset).natAbs

/-- No node of the list ends nearer to the offset than `b`, and none behind `b` as near. -/
def EndsNearest (offset : Int) (visits : List Visit) (b : Visit) : Prop :=
  ∃ before after n, visits = before ++ b :: after ∧ b.node.distance? offset = some n ∧
    (∀ v ∈ before, ∀ m ∈ v.node.distance? offset, n ≤ m) ∧
      ∀ v ∈ after, ∀ m ∈ v.node.distance? offset, n < m

namespace EndsNearest

variable {offset : Int} {visits : List Visit} {b v : Visit} {n : Nat}

theorem mem (h : EndsNearest offset visits b) : b ∈ visits := by
  rcases h with ⟨before, after, n, rfl, -⟩
  simp

theorem isSome_range? (h : EndsNearest offset visits b) : b.node.range?.isSome = true := by
  rcases h with ⟨before, after, n, -, hn, -⟩
  rcases Option.map_eq_some_iff.1 hn with ⟨r, hr, -⟩
  rw [hr]
  rfl

theorem le (h : EndsNearest offset visits b) (hn : b.node.distance? offset = some n) :
    ∀ v ∈ visits, ∀ m ∈ v.node.distance? offset, n ≤ m := by
  rcases h with ⟨before, after, n', rfl, hn', hbefore, hafter⟩
  obtain rfl : n = n' := Option.some.inj (hn.symm.trans hn')
  intro v hv m hm
  rcases List.mem_append.1 hv with hv | hv
  · exact hbefore v hv m hm
  · rcases List.mem_cons.1 hv with rfl | hv
    · exact Nat.le_of_eq (Option.some.inj (hn.symm.trans hm))
    · exact Nat.le_of_lt (hafter v hv m hm)

/-- A node behind that is further away changes nothing. -/
theorem snoc (h : EndsNearest offset visits b) (hn : b.node.distance? offset = some n)
    (hv : ∀ m ∈ v.node.distance? offset, n < m) : EndsNearest offset (visits ++ [v]) b := by
  rcases h with ⟨before, after, n', rfl, hn', hbefore, hafter⟩
  obtain rfl : n = n' := Option.some.inj (hn.symm.trans hn')
  refine ⟨before, after ++ [v], n, by simp, hn, hbefore, ?_⟩
  intro w hw
  rcases List.mem_append.1 hw with hw | hw
  · exact hafter w hw
  · rw [List.mem_singleton.1 hw]
    exact hv

/-- A node behind that is as near as all others takes over. -/
theorem last (hn : v.node.distance? offset = some n)
    (hle : ∀ w ∈ visits, ∀ m ∈ w.node.distance? offset, n ≤ m) :
    EndsNearest offset (visits ++ [v]) v := by
  refine ⟨visits, [], n, rfl, hn, hle, ?_⟩
  intro w hw
  cases hw

end EndsNearest

/-! ## The way up -/

/-- The first node on the way up from a node, itself included, that satisfies a condition. -/
def firstUp? (visits : List Visit) (ends : Tree → Bool) (id : Nat) : Option Nat :=
  (id :: ancestors visits id).find? fun i => (nodeAt? visits i).any ends

variable {root : Tree}

theorem firstUp?_of_ends {ends : Tree → Bool} {p : Place} (hp : p ∈ root.places)
    (h : ends p.node = true) : firstUp? root.visits ends p.id = some p.id := by
  rw [firstUp?, List.find?_cons_of_pos]
  rw [nodeAt?_place hp]
  exact h

theorem firstUp?_below {ends : Tree → Bool} {p : Place} {l : Link} {rest : List Link}
    (hp : p ∈ root.places) (hl : (⟨l.id, rest, l.node⟩ : Place) ∈ root.places)
    (habove : p.above = l :: rest) (h : ends p.node = false) :
    firstUp? root.visits ends p.id = firstUp? root.visits ends l.id := by
  have hchain : ancestors root.visits l.id = rest.map (·.id) := ancestors_place hl
  rw [firstUp?, List.find?_cons_of_neg, ancestors_place hp, habove, List.map_cons, firstUp?, hchain]
  rw [nodeAt?_place hp]
  exact Bool.eq_false_iff.1 h

theorem firstUp?_top {ends : Tree → Bool} {p : Place} (hp : p ∈ root.places) (habove : p.above = [])
    (h : ends p.node = false) : firstUp? root.visits ends p.id = none := by
  rw [firstUp?, List.find?_cons_of_neg, ancestors_place hp, habove]
  · rfl
  · rw [nodeAt?_place hp]
    exact Bool.eq_false_iff.1 h

/-- Two conditions that agree on the way up find the same node. -/
theorem firstUp?_congr {ends ends' : Tree → Bool} {p : Place} (hp : p ∈ root.places)
    (hself : ends p.node = ends' p.node) (habove : ∀ l ∈ p.above, ends l.node = ends' l.node) :
    firstUp? root.visits ends p.id = firstUp? root.visits ends' p.id := by
  -- On the chain above the node: what is found from a node that does not end the way is found from
  -- its parent.
  revert hself habove
  refine place_induction (motive := fun p => ends p.node = ends' p.node →
    (∀ l ∈ p.above, ends l.node = ends' l.node) →
      firstUp? root.visits ends p.id = firstUp? root.visits ends' p.id) ?_ ?_ hp
  · intro hself _
    have htop := root_place root
    cases hends : ends root with
    | true => rw [firstUp?_of_ends htop hends, firstUp?_of_ends htop (hself.symm.trans hends)]
    | false => rw [firstUp?_top htop rfl hends, firstUp?_top htop rfl (hself.symm.trans hends)]
  · intro l rest p hp hl hchain _ ih hself habove
    cases hends : ends p.node with
    | true => rw [firstUp?_of_ends hp hends, firstUp?_of_ends hp (hself.symm.trans hends)]
    | false =>
      rw [firstUp?_below hp hl hchain hends,
        firstUp?_below hp hl hchain (hself.symm.trans hends)]
      rw [hchain] at habove
      exact ih (habove l List.mem_cons_self) fun l' hl' => habove l' (List.mem_cons_of_mem _ hl')

def isAligned (cs : List Char) (column : Nat) (t : Tree) : Bool :=
  t.range?.any fun r =>
    (lineBefore cs r.1).length == column || (lineBefore cs r.1).length == 0

def isBare (t : Tree) : Bool :=
  t.range?.isNone && !t.isPair

/-- A node at which the search upwards ends. -/
def endsLift (cs : List Char) (column : Nat) (t : Tree) : Bool :=
  t.isAligned cs column || t.isBare

theorem endsLift_of_range? {t : Tree} {r : Nat × Nat} (h : t.range? = some r) (cs : List Char)
    (column : Nat) : t.endsLift cs column =
      ((lineBefore cs r.1).length == column || (lineBefore cs r.1).length == 0) := by
  simp [endsLift, isAligned, isBare, h]

theorem endsLift_of_range?_none {t : Tree} (h : t.range? = none) (cs : List Char) (column : Nat) :
    t.endsLift cs column = !t.isPair := by
  simp [endsLift, isAligned, isBare, h]

end Tree

namespace Document

open YamlServer.Tree

/-! ## The scan -/

/-- What the scan has found in the nodes seen so far: none of them has a range, or the candidate is
the last of the nearest. -/
inductive Found (offset : Int) (seen : List Visit) : Option Nearest → Prop where
  | nothing : (∀ v ∈ seen, v.node.distance? offset = none) → Found offset seen none
  | node {b : Visit} {n : Nat} (start : Nat) : EndsNearest offset seen b →
      b.node.distance? offset = some n → Found offset seen (some ⟨b.id, n, start⟩)

namespace Found

variable {offset : Int} {seen : List Visit} {best : Option Nearest} {v : Visit} {n : Nat}

theorem skip (h : Found offset seen best) (hv : v.node.distance? offset = none) :
    Found offset (seen ++ [v]) best := by
  cases h with
  | nothing hnone =>
    refine .nothing ?_
    intro w hw
    rcases List.mem_append.1 hw with hw | hw
    · exact hnone w hw
    · rw [List.mem_singleton.1 hw]
      exact hv
  | node start hb hn =>
    refine .node start (hb.snoc hn ?_) hn
    intro m hm
    rw [hv] at hm
    cases hm

/-- A node that is as near as the candidate becomes the candidate. -/
theorem take (h : Found offset seen best) (hv : v.node.distance? offset = some n)
    (hnear : ∀ c ∈ best, n ≤ c.distance) (start : Nat) :
    Found offset (seen ++ [v]) (some ⟨v.id, n, start⟩) := by
  refine .node start (EndsNearest.last hv ?_) hv
  intro w hw m hm
  cases h with
  | nothing hnone =>
    rw [hnone w hw] at hm
    cases hm
  | node start hb hdistance => exact Nat.le_trans (hnear _ rfl) (hb.le hdistance w hw m hm)

/-- A node that is further away than the candidate is left. -/
theorem leave (h : Found offset seen best) (hv : v.node.distance? offset = some n) {c : Nearest}
    (hc : best = some c) (hfar : c.distance < n) : Found offset (seen ++ [v]) best := by
  cases h with
  | nothing _ => cases hc
  | node start hb hdistance =>
    cases hc
    refine .node start (hb.snoc hdistance ?_) hdistance
    intro m hm
    rw [hv] at hm
    cases hm
    exact hfar

end Found

/-- A node with a range that starts late enough is taken if it is as near as the candidate. -/
theorem nearestFrom_ranged {v : Visit} {r : Nat × Nat} {least : Nat}
    (hrange : v.node.range? = some r) (hstart : least ≤ r.1) (offset : Int) (best : Option Nearest)
    (rest : List Visit) :
    nearestFrom offset least best (v :: rest) =
      if ∀ c ∈ best, ((r.2 : Int) - offset).natAbs ≤ c.distance then
        nearestFrom offset r.1 (some ⟨v.id, ((r.2 : Int) - offset).natAbs, r.1⟩) rest
      else nearestFrom offset least best rest := by
  rw [nearestFrom, hrange]
  cases best with
  | none => simp [hstart]
  | some c => simp [hstart]

/-- Where the starts never decrease, the scan takes or leaves nodes by their distances alone. -/
theorem Found.nearestFrom {offset : Int} {seen vs : List Visit} {best : Option Nearest}
    {least : Nat} (h : Found offset seen best)
    (hsorted : (vs.filterMap (·.node.range?)).Pairwise fun r r' => r.1 ≤ r'.1)
    (hleast : ∀ v ∈ vs, ∀ r ∈ v.node.range?, least ≤ r.1) :
    Found offset (seen ++ vs) (nearestFrom offset least best vs) := by
  induction vs generalizing seen best least with
  | nil => rwa [List.append_nil]
  | cons v rest ih =>
    have hlater : ∀ w ∈ rest, ∀ r ∈ w.node.range?, least ≤ r.1 := fun w hw =>
      hleast w (List.mem_cons_of_mem _ hw)
    rw [List.append_cons]
    rw [List.filterMap_cons] at hsorted
    cases hrange : v.node.range? with
    | none =>
      have hv : v.node.distance? offset = none := by rw [distance?, hrange]; rfl
      rw [hrange] at hsorted
      rw [Document.nearestFrom, hrange]
      exact ih (h.skip hv) hsorted hlater
    | some r =>
      have hv : v.node.distance? offset = some ((r.2 : Int) - offset).natAbs := by
        rw [distance?, hrange]
        rfl
      rw [hrange, List.pairwise_cons] at hsorted
      rw [nearestFrom_ranged hrange (hleast v List.mem_cons_self r hrange)]
      split
      · rename_i hnear
        refine ih (h.take hv hnear r.1) hsorted.2 ?_
        -- Nodes behind the one that is taken start no earlier than it does.
        intro w hw r' hr'
        exact hsorted.1 r' (List.mem_filterMap.2 ⟨w, hw, hr'⟩)
      · rename_i hfar
        simp only [not_forall, Nat.not_le] at hfar
        rcases hfar with ⟨c, hc, hfar⟩
        exact ih (h.leave hv hc hfar) hsorted.2 hlater

variable {d : Document} {root : Tree}

/-- In a document whose root has a range the scan ends with a node. -/
theorem exists_nearest (hroot : d.root = some root) (hranged : root.range?.isSome = true)
    (hsorted : (d.visits.filterMap (·.node.range?)).Pairwise fun r r' => r.1 ≤ r'.1)
    (hstart : ∀ v ∈ d.visits, ∀ r ∈ v.node.range?, d.start ≤ r.1) (offset : Int) :
    ∃ b, EndsNearest offset d.visits b ∧
      (nearestFrom offset d.start none d.visits).map (·.id) = some b.id := by
  have hnothing : Found offset [] none := .nothing (by simp)
  have hfound := hnothing.nearestFrom hsorted hstart
  rw [List.nil_append] at hfound
  generalize nearestFrom offset d.start none d.visits = best at hfound
  cases hfound with
  | node start hb hn => exact ⟨_, hb, rfl⟩
  | nothing hnone =>
    -- The root itself has a distance.
    have hmem : (⟨0, none, root⟩ : Visit) ∈ d.visits := by
      rw [visits_of_root hroot]
      exact visit_mem (root_place root)
    rcases Option.isSome_iff_exists.1 hranged with ⟨r, hr⟩
    have hdistance := hnone _ hmem
    rw [distance?, hr] at hdistance
    cases hdistance

/-! ## The loop that goes up -/

/-- The loop that goes up from a node, without a bound on its rounds. It ends at an aligned or a
bare node and at the root; above a pair without a parent it starts over at nothing, which is the
root. -/
inductive Lifts (d : Document) (cs : List Char) (column : Nat) :
    Option Nat → Option Nat → Prop where
  | nowhere : Lifts d cs column none (d.root.map fun _ => 0)
  | ends {v : Visit} : v ∈ d.visits → v.node.endsLift cs column = true →
      Lifts d cs column (some v.id) (some v.id)
  | top {v : Visit} : v ∈ d.visits → v.node.endsLift cs column = false →
      v.node.range?.isSome = true → v.parent = none → Lifts d cs column (some v.id) (some v.id)
  | up {v : Visit} {i : Nat} {found : Option Nat} : v ∈ d.visits →
      v.node.endsLift cs column = false → v.parent = some i → Lifts d cs column (some i) found →
      Lifts d cs column (some v.id) found
  | out {v : Visit} {found : Option Nat} : v ∈ d.visits → v.node.isPair = true → v.parent = none →
      Lifts d cs column none found → Lifts d cs column (some v.id) found

section Lift

variable {cs : List Char} {column fuel : Nat} {p : Place}

/-- A chain is no longer than the number of its node, and this is below the number of nodes. -/
theorem length_above_lt (hp : p ∈ root.places) : p.above.length < root.visits.length := by
  have hle := length_above_le hp
  have hlt := (List.getElem?_eq_some_iff.1 (getElem?_visits hp)).1
  omega

theorem column_start (cs : List Char) (s : Nat) :
    ((Lines.ofChars cs).position (Int.ofNat s)).2 = (lineBefore cs s).length := by
  rw [Lines.column_eq]
  rfl

theorem liftFrom_nowhere (hroot : d.root = some root) (b : Lines) (visits : List Visit)
    (indent : Int) (fuel : Nat) : d.liftFrom b visits indent (fuel + 1) none = some 0 := by
  rw [liftFrom]
  simp [hroot]

theorem liftFrom_ends (hp : p ∈ root.places) (h : p.node.endsLift cs column = true) :
    d.liftFrom (Lines.ofChars cs) root.visits (Int.ofNat column) (fuel + 1) (some p.id) =
      some p.id := by
  rw [liftFrom, Option.bind_some, getElem?_visits hp]
  dsimp only [Place.visit]
  cases hrange : p.node.range? with
  | none =>
    rw [endsLift_of_range?_none hrange, Bool.not_eq_true'] at h
    simp [h]
  | some r =>
    rw [endsLift_of_range? hrange, Bool.or_eq_true, beq_iff_eq] at h
    simp only [column_start]
    rw [if_pos]
    simpa [Int.ofNat_inj] using h

/-- A node at which the loop does not end has a range, or is a pair. -/
theorem not_ends_cases (h : p.node.endsLift cs column = false) :
    (∃ r, p.node.range? = some r ∧ ¬ ((lineBefore cs r.1).length = column ∨
      (lineBefore cs r.1).length = 0)) ∨ p.node.range? = none ∧ p.node.isPair = true := by
  cases hrange : p.node.range? with
  | none =>
    rw [endsLift_of_range?_none hrange, Bool.not_eq_false'] at h
    exact Or.inr ⟨rfl, h⟩
  | some r =>
    rw [endsLift_of_range? hrange] at h
    exact Or.inl ⟨r, rfl, by simpa using h⟩

theorem liftFrom_up {l : Link} {rest : List Link} (hp : p ∈ root.places)
    (h : p.node.endsLift cs column = false) (habove : p.above = l :: rest) :
    d.liftFrom (Lines.ofChars cs) root.visits (Int.ofNat column) (fuel + 1) (some p.id) =
      d.liftFrom (Lines.ofChars cs) root.visits (Int.ofNat column) fuel (some l.id) := by
  have hparent : p.parent? = some l.id := by rw [Place.parent?, habove]; rfl
  rw [liftFrom, Option.bind_some, getElem?_visits hp]
  dsimp only [Place.visit]
  rw [hparent]
  rcases not_ends_cases h with ⟨r, hrange, hcolumn⟩ | ⟨hrange, hpair⟩
  · rw [hrange]
    simp only [column_start]
    rw [if_neg]
    simpa [Int.ofNat_inj] using hcolumn
  · rw [hrange, hpair]
    rfl

theorem liftFrom_top (hroot : d.root = some root) (hp : p ∈ root.places)
    (h : p.node.endsLift cs column = false) (habove : p.above = []) (hid : p.id = 0) :
    d.liftFrom (Lines.ofChars cs) root.visits (Int.ofNat column) (fuel + 2) (some p.id) =
      some 0 := by
  have hparent : p.parent? = none := by rw [Place.parent?, habove]; rfl
  rw [liftFrom, Option.bind_some, getElem?_visits hp]
  dsimp only [Place.visit]
  rw [hparent]
  rcases not_ends_cases h with ⟨r, hrange, hcolumn⟩ | ⟨hrange, hpair⟩
  · rw [hrange]
    simp only [column_start, hid]
    rw [if_neg]
    simpa [Int.ofNat_inj] using hcolumn
  -- Above a pair that is the root the loop goes on with no node, and ends with the root.
  · rw [hrange, hpair]
    exact liftFrom_nowhere hroot (Lines.ofChars cs) root.visits (Int.ofNat column) fuel

/-- With a bound above the length of its chain, the loop finds the first node at which it ends, and
the root if there is none. -/
theorem liftFrom_eq (hroot : d.root = some root) (hp : p ∈ root.places)
    (hfuel : p.above.length + 1 < fuel) :
    d.liftFrom (Lines.ofChars cs) root.visits (Int.ofNat column) fuel (some p.id) =
      some ((firstUp? root.visits (endsLift cs column) p.id).getD 0) := by
  -- Each round goes up one link of the chain; a root that is a pair takes one round more.
  revert fuel
  refine place_induction (motive := fun p => ∀ {fuel : Nat}, p.above.length + 1 < fuel →
    d.liftFrom (Lines.ofChars cs) root.visits (Int.ofNat column) fuel (some p.id) =
      some ((firstUp? root.visits (endsLift cs column) p.id).getD 0)) ?_ ?_ hp
  · intro fuel hfuel
    obtain ⟨fuel, rfl⟩ : ∃ n, fuel = n + 2 := ⟨fuel - 2, by simp at hfuel; omega⟩
    have htop := root_place root
    cases hends : root.endsLift cs column with
    | true => rw [firstUp?_of_ends htop hends, liftFrom_ends htop hends]; rfl
    | false => rw [firstUp?_top htop rfl hends, liftFrom_top hroot htop hends rfl rfl]; rfl
  · intro l rest p hp hl habove _ ih fuel hfuel
    rw [habove, List.length_cons] at hfuel
    obtain ⟨fuel, rfl⟩ : ∃ n, fuel = n + 1 := ⟨fuel - 1, by omega⟩
    cases hends : p.node.endsLift cs column with
    | true => rw [firstUp?_of_ends hp hends, liftFrom_ends hp hends]; rfl
    | false =>
      rw [firstUp?_below hp hl habove hends, liftFrom_up hp hends habove]
      exact ih (by simpa using hfuel)

/-- The loop ends at every node, without a bound, and finds the same node. -/
theorem lifts_firstUp? (hroot : d.root = some root) (hp : p ∈ root.places) :
    d.Lifts cs column (some p.id)
      (some ((firstUp? root.visits (endsLift cs column) p.id).getD 0)) := by
  have hmem : ∀ q ∈ root.places, q.visit ∈ d.visits := by
    intro q hq
    rw [visits_of_root hroot]
    exact visit_mem hq
  refine place_induction (motive := fun p => d.Lifts cs column (some p.id)
    (some ((firstUp? root.visits (endsLift cs column) p.id).getD 0))) ?_ ?_ hp
  · have htop := root_place root
    cases hends : root.endsLift cs column with
    | true =>
      rw [firstUp?_of_ends htop hends]
      exact .ends (hmem _ htop) hends
    | false =>
      rw [firstUp?_top htop rfl hends]
      rcases not_ends_cases (p := ⟨0, [], root⟩) hends with ⟨r, hrange, -⟩ | ⟨-, hpair⟩
      · refine .top (hmem _ htop) hends ?_ rfl
        rw [Place.visit, hrange]
        rfl
      · refine .out (hmem _ htop) hpair rfl ?_
        have hnowhere : d.Lifts cs column none (d.root.map fun _ => 0) := .nowhere
        rwa [hroot] at hnowhere
  · intro l rest p hp hl habove _ ih
    cases hends : p.node.endsLift cs column with
    | true =>
      rw [firstUp?_of_ends hp hends]
      exact .ends (hmem _ hp) hends
    | false =>
      rw [firstUp?_below hp hl habove hends]
      refine .up (hmem _ hp) hends ?_ ih
      rw [Place.visit, Place.parent?, habove]
      rfl

/-- The bound that the search sets is no restriction: the loop without one ends at every node, and
finds the same. -/
theorem lifts_liftFrom (hroot : d.root = some root) (cs : List Char) (column : Nat) {v : Visit}
    (hv : v ∈ d.visits) :
    d.Lifts cs column (some v.id) (d.liftFrom (Lines.ofChars cs) d.visits (Int.ofNat column)
      (d.visits.length + 2) (some v.id)) := by
  have hvisits := visits_of_root hroot
  rw [hvisits, visits_eq_places] at hv
  rcases List.mem_map.1 hv with ⟨p, hp, rfl⟩
  have hchain := length_above_lt hp
  have hbounded : d.liftFrom (Lines.ofChars cs) root.visits (Int.ofNat column)
      (root.visits.length + 2) (some p.id) =
        some ((firstUp? root.visits (endsLift cs column) p.id).getD 0) :=
    liftFrom_eq hroot hp (by omega)
  rw [hvisits, Place.visit, hbounded]
  exact lifts_firstUp? hroot hp

end Lift

/-! ## The nearest node -/

/-- The nearest node, from the one that the scan ends with. -/
theorem closest?_of_scan (hroot : d.root = some root) {offset : Int} {b : Visit} (hb : b ∈ d.visits)
    (hscan : (nearestFrom offset d.start none d.visits).map (·.id) = some b.id) (cs : List Char) :
    d.closest? (Lines.ofChars cs) offset =
      if b.node.isNullScalar || !(lineBefore cs offset.toNat).all Lines.isIndent then some b.id
      else some ((firstUp? d.visits
        (endsLift cs (lineBefore cs offset.toNat).length) b.id).getD 0) := by
  have hvisits := visits_of_root hroot
  rw [hvisits, visits_eq_places] at hb
  rcases List.mem_map.1 hb with ⟨p, hp, rfl⟩
  have hnode : nodeAt? d.visits p.visit.id = some p.node := by
    rw [hvisits]
    exact nodeAt?_place hp
  have hcolumn := Lines.indentation_eq_column_iff cs offset
  rw [closest?, hscan]
  simp only [Option.bind_some, hnode, Option.map_some, Option.getD_some]
  cases hnull : p.node.isNullScalar with
  | true => simp [Place.visit, hnull]
  | false =>
    cases hblank : (lineBefore cs offset.toNat).all Lines.isIndent with
    | false =>
      rw [hblank] at hcolumn
      simp only [Place.visit, hnull, Bool.false_eq_true, if_false, beq_iff_eq, hcolumn]
      rfl
    | true =>
      -- The loop runs with the column of the cursor for the indentation.
      have hindent := hcolumn.2 hblank
      simp only [Place.visit, hnull, Bool.false_eq_true, if_false, hindent, beq_self_eq_true,
        if_true]
      have hchain := length_above_lt hp
      rw [hvisits, Lines.column_eq]
      exact liftFrom_eq hroot hp (by omega)

/-- Where the root has a range and starts never decrease along the walk, the nearest node is found
from the last of the nodes `b` that end nearest to the offset. It is `b` if that is a scalar without
a value, or if anything but spaces and tabs stands before the cursor on its line. Otherwise it is
the first node from `b` on upwards that starts in the column of the cursor or in the first one, or
that is bare, and the root if there is none. Where no bare node is above `b`, only aligned ones
count. -/
theorem closest?_eq_firstUp? (hroot : d.root = some root) (hranged : root.range?.isSome = true)
    (hsorted : (d.visits.filterMap (·.node.range?)).Pairwise fun r r' => r.1 ≤ r'.1)
    (hstart : ∀ v ∈ d.visits, ∀ r ∈ v.node.range?, d.start ≤ r.1) (cs : List Char) (offset : Int) :
    ∃ b, EndsNearest offset d.visits b ∧
      (b.node.isNullScalar = true ∨ (lineBefore cs offset.toNat).all Lines.isIndent = false →
        d.closest? (Lines.ofChars cs) offset = some b.id) ∧
      (b.node.isNullScalar = false → (lineBefore cs offset.toNat).all Lines.isIndent = true →
        d.closest? (Lines.ofChars cs) offset =
          some ((firstUp? d.visits
            (endsLift cs (lineBefore cs offset.toNat).length) b.id).getD 0)) ∧
      ((∀ v ∈ d.visits, v.id ∈ ancestors d.visits b.id → v.node.isBare = false) →
        firstUp? d.visits (endsLift cs (lineBefore cs offset.toNat).length) b.id =
          firstUp? d.visits (isAligned cs (lineBefore cs offset.toNat).length) b.id) := by
  rcases exists_nearest hroot hranged hsorted hstart offset with ⟨b, hb, hscan⟩
  have hclosest := closest?_of_scan hroot hb.mem hscan cs
  refine ⟨b, hb, ?_, ?_, ?_⟩
  · rintro (hnull | hbehind)
    · simpa [hnull] using hclosest
    · simpa [hbehind] using hclosest
  · intro hnull hblank
    simpa [hnull, hblank] using hclosest
  · intro habove
    have hsome := hb.isSome_range?
    have hmem := hb.mem
    rw [visits_of_root hroot] at habove hmem ⊢
    rw [visits_eq_places] at hmem
    rcases List.mem_map.1 hmem with ⟨p, hp, rfl⟩
    have hagree : ∀ t : Tree, t.isBare = false →
        t.endsLift cs (lineBefore cs offset.toNat).length =
          t.isAligned cs (lineBefore cs offset.toNat).length := by
      intro t ht
      rw [endsLift, ht, Bool.or_false]
    refine firstUp?_congr hp (hagree _ ?_) fun l hl => hagree _ ?_
    · have hrange : p.node.range?.isNone = false := Option.isNone_eq_false_iff.2 hsome
      rw [isBare, hrange]
      rfl
    · -- A link of the chain is a node of the document, and stands above `b`.
      rcases place_of_mem_above hp hl with ⟨q, hq, hid, hnode⟩
      have hin : q.id ∈ ancestors root.visits p.id := by
        rw [hid, ancestors_place hp]
        exact List.mem_map_of_mem hl
      rw [← hnode]
      exact habove q.visit (visit_mem hq) hin

def stairText : List Char :=
  "a:\n  b:\n    c: 1\n  ".toList

def stairDocument : Document :=
  let info (s e : Nat) : Info := ⟨some s, some e, none, none, none⟩
  let word (s : Nat) (raw : String) : Tree := .scalar (info s (s + 1)) (.str raw) raw none
  Document.ofTree (some (.map (info 0 19) [.pair (some (word 0 "a")) (some
    (.map (info 5 19) [.pair (some (word 5 "b")) (some
      (.map (info 12 19) [.pair (some (word 12 "c")) (some (word 15 "1"))]))]))]))

theorem closest?_eq_firstUp?_stair :
    (stairDocument.visits.filterMap (·.node.range?)).Pairwise (fun r r' => r.1 ≤ r'.1) ∧
    (∀ v ∈ stairDocument.visits, ∀ r ∈ v.node.range?, stairDocument.start ≤ r.1) ∧
    (lineBefore stairText 19).length = 2 ∧
    stairDocument.closest? (Lines.ofChars stairText) 19 = some 3 ∧
    ∃ b, EndsNearest 19 stairDocument.visits b ∧
      stairDocument.closest? (Lines.ofChars stairText) 19 =
        some ((firstUp? stairDocument.visits (isAligned stairText 2) b.id).getD 0) := by
  have hsorted : (stairDocument.visits.filterMap (·.node.range?)).Pairwise
      fun r r' => r.1 ≤ r'.1 := by decide +kernel
  have hstart : ∀ v ∈ stairDocument.visits, ∀ r ∈ v.node.range?, stairDocument.start ≤ r.1 := by
    decide +kernel
  have hcolumn : (lineBefore stairText 19).length = 2 := by decide +kernel
  have hnodes : ∀ v ∈ stairDocument.visits,
      v.node.isNullScalar = false ∧ v.node.isBare = false := by
    decide +kernel
  refine ⟨hsorted, hstart, hcolumn, by decide +kernel, ?_⟩
  rcases closest?_eq_firstUp? rfl rfl hsorted hstart stairText 19 with ⟨b, hb, -, hlift, hbare⟩
  refine ⟨b, hb, ?_⟩
  rw [hlift (hnodes b hb.mem).1 (by decide +kernel), hbare fun v hv _ => (hnodes v hv).2]
  exact congrArg
    (fun n => some ((firstUp? stairDocument.visits (isAligned stairText n) b.id).getD 0)) hcolumn

def bareText : List Char :=
  "- - x\n  ".toList

def bareDocument : Document :=
  Document.ofTree (some (.sequence ⟨some 0, some 5, none, none, none⟩
    [.sequence ⟨none, none, none, none, none⟩
      [.scalar ⟨some 4, some 5, none, none, none⟩ (.str "x") "x" none]]))

/-- The search upwards does not go on to the next node with a range: it ends at the bare sequence,
though the root is the first aligned node. -/
theorem closest?_bareSequence :
    (bareDocument.root.bind range?).isSome = true ∧
    (bareDocument.visits.filterMap (·.node.range?)).Pairwise (fun r r' => r.1 ≤ r'.1) ∧
    (∀ v ∈ bareDocument.visits, ∀ r ∈ v.node.range?, bareDocument.start ≤ r.1) ∧
    ∃ b, EndsNearest 8 bareDocument.visits b ∧ b.node.isNullScalar = false ∧
      (lineBefore bareText 8).all Lines.isIndent = true ∧
      firstUp? bareDocument.visits (isAligned bareText (lineBefore bareText 8).length) b.id =
        some 0 ∧
      bareDocument.closest? (Lines.ofChars bareText) 8 = some 1 := by
  refine ⟨rfl, by decide +kernel, by decide +kernel,
    ⟨2, some 1, .scalar ⟨some 4, some 5, none, none, none⟩ (.str "x") "x" none⟩, ?_⟩
  have hvisits : bareDocument.visits = (bareDocument.visits.take 2) ++
      [⟨2, some 1, .scalar ⟨some 4, some 5, none, none, none⟩ (.str "x") "x" none⟩] := rfl
  refine ⟨⟨_, _, 3, hvisits, rfl, by decide +kernel, by decide +kernel⟩, rfl, by decide +kernel,
    by decide +kernel, by decide +kernel⟩

end Document
end YamlServer
