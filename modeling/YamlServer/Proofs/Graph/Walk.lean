import YamlServer.Graph.Match
import YamlServer.Proofs.Outcome
import YamlServer.Proofs.Tree.Place
import YamlServer.Proofs.Value

/-!
# The walk over a document as a fold over its places

Checking a document descends its tree and prunes it on the way: nothing is looked at below an
unknown key and in a key. The same report comes from going through all places of the tree in order,
each of which decides by its own chain whether it counts.

* `Graph.validate_eq_drain`: the walk is a loop with a stack.
-/

namespace YamlServer
namespace Tree
namespace Place

def enclosingKeys (p : Place) : List String :=
  p.above.filterMap (·.node.keyText?)

def keyPath (p : Place) : List String :=
  p.enclosingKeys.reverse ++ p.node.keyText?.toList

def ownKey (p : Place) : String :=
  p.keyPath.getLast?.getD ""

def scalarValue? (p : Place) : Option Value :=
  match p.node, p.above with
  | .scalar _ value _ _, ⟨_, .pair _ _, .value⟩ :: _ => some value
  | _, _ => none

def isLine (p : Place) : Bool :=
  match p.node with
  | .scalar .. | .map .. => true
  | _ => false

end Place
end Tree

namespace Graph

open YamlServer.Tree (Place Link)

/-! ## Which places count -/

/-- Every pair around the place has a text key with an entry, and the place is in no key. -/
def Inspects (g : Graph) (p : Place) : Prop :=
  ∀ l ∈ p.above, l.side ≠ .key ∧
    (l.node.isPair = true → ∃ k ∈ l.node.keyText?, g.contains (.str k) = true)

/-- An inspected pair whose text key has no entry. -/
def Rejects (g : Graph) (p : Place) : Prop :=
  g.Inspects p ∧ ∃ k ∈ p.node.keyText?, g.contains (.str k) = false

/-- An inspected pair whose text key has an entry, or an inspected scalar that is a pair's value. -/
def Judges (g : Graph) (p : Place) : Prop :=
  g.Inspects p ∧ ((∃ k ∈ p.node.keyText?, g.contains (.str k) = true) ∨ p.scalarValue?.isSome)

instance (g : Graph) (p : Place) : Decidable (g.Inspects p) :=
  inferInstanceAs (Decidable (∀ l ∈ p.above, l.side ≠ .key ∧
    (l.node.isPair = true → ∃ k ∈ l.node.keyText?, g.contains (.str k) = true)))

instance (g : Graph) (p : Place) : Decidable (g.Rejects p) :=
  inferInstanceAs (Decidable (g.Inspects p ∧ ∃ k ∈ p.node.keyText?, g.contains (.str k) = false))

instance (g : Graph) (p : Place) : Decidable (g.Judges p) :=
  inferInstanceAs (Decidable (g.Inspects p ∧
    ((∃ k ∈ p.node.keyText?, g.contains (.str k) = true) ∨ p.scalarValue?.isSome)))

/-- An inspected scalar or map. -/
def Counts (g : Graph) (p : Place) : Prop :=
  g.Inspects p ∧ p.isLine = true

instance (g : Graph) (p : Place) : Decidable (g.Counts p) :=
  inferInstanceAs (Decidable (g.Inspects p ∧ p.isLine = true))

/-! ## One step of the walk -/

/-- What is wrong with a key under its definitions at a place, and with the value of a scalar. -/
def objection (key : String) (value : Option Value) (ds : List Definition) :
    Option (SchemaWarning × String) :=
  if ds.isEmpty then some (.schemaMismatch, "\"" ++ key ++ "\" is not allowed at this position")
  else
    match value with
    | some v =>
      if ds.any fun d => d.accepts v then none
      else
        some (.typeMismatch, "Value of \"" ++ key ++ "\" should be of type " ++
          Value.joined " | " (typeNames ds))
    | none => none

/-- What is wrong at a place. Definitions are looked up by `m`, at the judged places only. -/
def complaintAt (g : Graph) (m : Nat → Tree → Except GraphFault (List Definition)) (p : Place) :
    Except GraphFault (Option (SchemaWarning × String)) :=
  if g.Rejects p then .ok (some (.unknownKey, "Unknown key \"" ++ p.ownKey ++ "\""))
  else if g.Judges p then (m p.id p.node).map (objection p.ownKey p.scalarValue?)
  else .ok none

def tally (g : Graph) (p : Place) (r : Report) : Report :=
  if g.Counts p then { r with lines := r.lines + 1 } else r

/-- The walk at one place: note what is wrong, then count. -/
def stepAt (g : Graph) (m : Nat → Tree → Except GraphFault (List Definition)) (r : Report)
    (p : Place) : Except GraphFault Report :=
  (g.complaintAt m p).map fun c => g.tally p (r.note p.id p.node c)

theorem complaint?_eq (g : Graph) (visits : List Tree.Visit) (id : Nat) (t : Tree) (key : String)
    (value : Option Value) :
    g.complaint? visits id t key value =
      if g.contains (.str key) then (g.matchNode visits id t).map (objection key value)
      else .ok (some (.unknownKey, "Unknown key \"" ++ key ++ "\"")) := by
  rw [complaint?]
  cases hkey : g.contains (.str key) with
  | false => simp
  | true =>
    simp only [Bool.not_true, Bool.false_eq_true, if_false, if_true]
    cases g.matchNode visits id t with
    | error f => rfl
    | ok ds =>
      simp only [bind, Except.bind, Except.map, objection, pure, Except.pure]
      cases hds : ds.isEmpty with
      | true => simp
      | false =>
        cases value with
        | none => simp
        | some v =>
          simp only [Bool.false_eq_true, if_false]
          split <;> rfl

/-! ## The whole walk -/

theorem keyText?_eq_some {t : Tree} {k : String} (h : t.keyText? = some k) : t.isPair = true := by
  cases t with
  | pair key value => rfl
  | _ => simp [Tree.keyText?] at h

theorem keyText?_eq_none {t : Tree} (h : t.isPair = false) : t.keyText? = none := by
  cases hk : t.keyText? with
  | none => rfl
  | some k => simp [keyText?_eq_some hk] at h

def valueKey : List Link → Option String
  | ⟨_, .pair key value, .value⟩ :: _ => (Tree.pair key value).keyText?
  | _ => none

section Steps

variable {g : Graph} {m : Nat → Tree → Except GraphFault (List Definition)} {p : Place}

theorem ownKey_of_keyText {k : String} (h : p.node.keyText? = some k) : p.ownKey = k := by
  simp [Place.ownKey, Place.keyPath, h]

/-- Nothing happens at a place that is not inspected. -/
theorem stepAt_of_not_inspects (h : ¬ g.Inspects p) (r : Report) : g.stepAt m r p = .ok r := by
  have hrejects : ¬ g.Rejects p := fun hr => h hr.1
  have hjudges : ¬ g.Judges p := fun hj => h hj.1
  have hcounts : ¬ g.Counts p := fun hc => h hc.1
  simp [stepAt, complaintAt, hrejects, hjudges, tally, hcounts, Except.map, Report.note]

theorem foldlM_of_not_inspects {ps : List Place} (h : ∀ p ∈ ps, ¬ g.Inspects p) (r : Report) :
    ps.foldlM (g.stepAt m) r = .ok r := by
  induction ps with
  | nil => rfl
  | cons p ps ih =>
    rw [List.foldlM_cons, stepAt_of_not_inspects (h p List.mem_cons_self)]
    exact ih fun q hq => h q (List.mem_cons_of_mem _ hq)

/-- A node that is neither a pair nor a pair's scalar value only counts. -/
theorem stepAt_of_other (hinspects : g.Inspects p) (hpair : p.node.keyText? = none)
    (hvalue : p.scalarValue? = none) (r : Report) :
    g.stepAt m r p = .ok (if p.isLine then { r with lines := r.lines + 1 } else r) := by
  have hrejects : ¬ g.Rejects p := by
    rintro ⟨-, k, hk, -⟩
    simp [hpair] at hk
  have hjudges : ¬ g.Judges p := by
    rintro ⟨-, ⟨k, hk, -⟩ | hsome⟩
    · simp [hpair] at hk
    · simp [hvalue] at hsome
  have hcounts : g.Counts p ↔ p.isLine = true := by simp [Counts, hinspects]
  simp [stepAt, complaintAt, hrejects, hjudges, tally, hcounts, Except.map, Report.note]

/-- A scalar that is a pair's value is judged by the key of the pair, and counts. -/
theorem stepAt_of_value {n : Nat} {key value : Option Tree} {rest : List Link} {k : String}
    {i : Info} {v : Value} {raw : String} {style : Option Yaml.Style}
    (hinspects : g.Inspects p) (hnode : p.node = .scalar i v raw style)
    (habove : p.above = ⟨n, .pair key value, .value⟩ :: rest)
    (hk : (Tree.pair key value).keyText? = some k) (r : Report) :
    g.stepAt m r p =
      ((m p.id p.node).map (objection k (some v))).map fun c =>
        { r.note p.id p.node c with lines := (r.note p.id p.node c).lines + 1 } := by
  have htext : p.node.keyText? = none := by rw [hnode]; rfl
  have hvalue : p.scalarValue? = some v := by simp [Place.scalarValue?, hnode, habove]
  have hown : p.ownKey = k := by
    simp [Place.ownKey, Place.keyPath, Place.enclosingKeys, habove, hk, htext]
  have hrejects : ¬ g.Rejects p := by
    rintro ⟨-, k', hk', -⟩
    simp [htext] at hk'
  have hjudges : g.Judges p := ⟨hinspects, Or.inr (by rw [hvalue]; rfl)⟩
  have hcounts : g.Counts p := ⟨hinspects, by simp [Place.isLine, hnode]⟩
  simp [stepAt, complaintAt, hrejects, hjudges, hown, hvalue, tally, hcounts]

/-- A pair with a text key is rejected, or judged by its key; it does not count. -/
theorem stepAt_of_pair {k : String} (hinspects : g.Inspects p) (hk : p.node.keyText? = some k)
    (r : Report) :
    g.stepAt m r p =
      (if g.contains (.str k) then (m p.id p.node).map (objection k none)
        else .ok (some (.unknownKey, "Unknown key \"" ++ k ++ "\""))).map
          (r.note p.id p.node) := by
  have hpair : p.node.isPair = true := keyText?_eq_some hk
  have hvalue : p.scalarValue? = none := by
    cases hnode : p.node with
    | pair key value => simp [Place.scalarValue?, hnode]
    | _ => simp [hnode, Tree.isPair] at hpair
  have hcounts : ¬ g.Counts p := by
    rintro ⟨-, hline⟩
    cases hnode : p.node with
    | pair key value => simp [Place.isLine, hnode] at hline
    | _ => simp [hnode, Tree.isPair] at hpair
  have hown : p.ownKey = k := ownKey_of_keyText hk
  cases hc : g.contains (.str k) with
  | false =>
    have hrejects : g.Rejects p := ⟨hinspects, k, hk, hc⟩
    simp [stepAt, complaintAt, hrejects, hown, tally, hcounts]
  | true =>
    have hrejects : ¬ g.Rejects p := by
      rintro ⟨-, k', hk', hc'⟩
      obtain rfl : k = k' := Option.some.inj (hk.symm.trans hk')
      simp [hc] at hc'
    have hjudges : g.Judges p := ⟨hinspects, Or.inl ⟨k, hk, hc⟩⟩
    simp [stepAt, complaintAt, hrejects, hjudges, hown, hvalue, tally, hcounts]

end Steps

theorem objection_ne_unknownKey (key : String) (value : Option Value) (ds : List Definition) :
    (objection key value ds).map (·.1) ≠ some .unknownKey := by
  unfold objection
  split
  · simp
  · split
    · split <;> simp
    · simp

/-- The links of a chain decide about every place below them. -/
theorem not_inspects_below {g : Graph} {above : List Link} {id : Nat} {t : Tree} {l : Link}
    (hl : l ∈ above)
    (hbad : ¬ (l.side ≠ .key ∧
      (l.node.isPair = true → ∃ k ∈ l.node.keyText?, g.contains (.str k) = true))) :
    ∀ p ∈ Tree.placesFrom above id t, ¬ g.Inspects p := by
  -- The chain of a place below ends in this one.
  intro p hp hinspects
  exact hbad (hinspects l ((Tree.suffix_above hp).subset hl))

theorem Inspects.cons {g : Graph} {id id' : Nat} {above : List Link} {t c : Tree} {side : Tree.Side}
    (h : g.Inspects ⟨id, above, t⟩) (hside : side ≠ .key)
    (hpair : t.isPair = true → ∃ k ∈ t.keyText?, g.contains (.str k) = true) :
    g.Inspects ⟨id', ⟨id, t, side⟩ :: above, c⟩ := by
  intro l hl
  rcases List.mem_cons.1 hl with rfl | hl
  · exact ⟨hside, hpair⟩
  · exact h l hl

section Walk

variable {g : Graph} {visits : List Tree.Visit}

/-- Descending to the children of a map, a sequence or a leaf is going through their places. -/
theorem foldlM_children {fuel id : Nat} {above : List Link} {t : Tree}
    (hpair : t.isPair = false)
    (ih : ∀ (i : Nat) (c : Tree) (r : Report), c ∈ t.children →
      g.checkFrom visits fuel none i c r =
        (Tree.placesFrom (⟨id, t, .entry⟩ :: above) i c).foldlM (g.stepAt (g.matchNode visits)) r)
    (r : Report) :
    (t.numberedChildren id).foldlM (fun r c => g.checkFrom visits fuel none c.1 c.2 r) r =
      ((Tree.branches id t).flatMap fun b =>
        Tree.placesFrom (⟨id, t, b.side⟩ :: above) b.id b.node).foldlM
          (g.stepAt (g.matchNode visits)) r := by
  -- Only a pair has branches on other sides than the entries'.
  have hbranches : Tree.branches id t =
      (t.numberedChildren id).map fun c => ⟨.entry, c.1, c.2⟩ := by
    cases t with
    | pair key value => cases hpair
    | _ => rfl
  rw [Outcome.foldlM_flatMap, hbranches, List.foldlM_map]
  refine Outcome.foldlM_congr ?_ r
  rintro ⟨i, c⟩ hc r
  exact ih i c r (Tree.mem_of_mem_numberFrom hc)

theorem checkFrom_scalar (fuel : Nat) {id : Nat} {above : List Link} {i : Info} {v : Value}
    {raw : String} {style : Option Yaml.Style}
    (hinspects : g.Inspects ⟨id, above, .scalar i v raw style⟩) (r : Report) :
    g.checkFrom visits (fuel + 1) (valueKey above) id (.scalar i v raw style) r =
      g.stepAt (g.matchNode visits) r ⟨id, above, .scalar i v raw style⟩ := by
  -- Whether a scalar is a pair's value is read off the nearest link, where the walk was told the
  -- key.
  by_cases hvalue : ∃ n key value rest, above = ⟨n, .pair key value, .value⟩ :: rest
  · obtain ⟨n, key, value, rest, rfl⟩ := hvalue
    obtain ⟨k, hk, hc⟩ := (hinspects _ List.mem_cons_self).2 rfl
    have hkey : valueKey (⟨n, .pair key value, .value⟩ :: rest) = some k := hk
    rw [stepAt_of_value hinspects rfl rfl hk, hkey]
    simp only [checkFrom, complaint?_eq, hc, if_true]
    cases g.matchNode visits id (.scalar i v raw style) with
    | error f => rfl
    | ok ds => rfl
  · have hkey : valueKey above = none := by
      unfold valueKey
      split
      · exact absurd ⟨_, _, _, _, rfl⟩ hvalue
      · rfl
    have hnone : (⟨id, above, .scalar i v raw style⟩ : Place).scalarValue? = none := by
      unfold Place.scalarValue?
      split
      · rename_i habove
        exact absurd ⟨_, _, _, _, habove⟩ hvalue
      · rfl
    rw [stepAt_of_other hinspects rfl hnone, hkey]
    simp [checkFrom, Place.isLine]

theorem checkFrom_pair {fuel id : Nat} {above : List Link} {key value : Option Tree}
    (hinspects : g.Inspects ⟨id, above, .pair key value⟩)
    (ih : ∀ (id' : Nat) (above' : List Link) (v : Tree) (r : Report), v ∈ value →
      g.Inspects ⟨id', above', v⟩ → g.checkFrom visits fuel (valueKey above') id' v r =
        (Tree.placesFrom above' id' v).foldlM (g.stepAt (g.matchNode visits)) r)
    (valueOf : Option String) (r : Report) :
    g.checkFrom visits (fuel + 1) valueOf id (.pair key value) r =
      (Tree.placesFrom above id (.pair key value)).foldlM (g.stepAt (g.matchNode visits)) r := by
  -- No place in the key is inspected: its chain leaves the pair on the key's side.
  have hkeySide : ∀ r : Report,
      (Tree.placesOption (⟨id, .pair key value, .key⟩ :: above) (id + 1) key).foldlM
        (g.stepAt (g.matchNode visits)) r = .ok r := by
    intro r
    cases key with
    | none => rfl
    | some c =>
      refine foldlM_of_not_inspects (not_inspects_below List.mem_cons_self ?_) r
      rintro ⟨hside, -⟩
      exact hside rfl
  -- Nor is one in the value, unless the key is a text with an entry.
  have hvalueSide : (∀ k, (Tree.pair key value).keyText? = some k → g.contains (.str k) = false) →
      ∀ r : Report, (Tree.placesOption (⟨id, .pair key value, .value⟩ :: above)
        (id + 1 + Tree.sizeOption key) value).foldlM (g.stepAt (g.matchNode visits)) r = .ok r := by
    intro hunknown r
    cases value with
    | none => rfl
    | some c =>
      refine foldlM_of_not_inspects (not_inspects_below List.mem_cons_self ?_) r
      rintro ⟨-, hpair⟩
      obtain ⟨k, hk, hc⟩ := hpair rfl
      simp [hunknown k hk] at hc
  rw [Tree.placesFrom, List.foldlM_cons, checkFrom]
  cases hk : (Tree.pair key value).keyText? with
  | none =>
    -- A key that is no scalar: the pair is passed over with everything below it.
    rw [stepAt_of_other hinspects hk rfl]
    simp only [Place.isLine, Bool.false_eq_true, if_false, bind, Except.bind]
    rw [List.foldlM_append, hkeySide]
    exact (hvalueSide (fun k hk' => by simp [hk] at hk') r).symm
  | some k =>
    rw [stepAt_of_pair hinspects hk]
    simp only [complaint?_eq]
    cases hc : g.contains (.str k) with
    | false =>
      -- An unknown key is noted, and the walk stops at the pair.
      simp only [Bool.false_eq_true, if_false, Except.map, bind, Except.bind]
      rw [List.foldlM_append, hkeySide]
      refine Eq.symm (Eq.trans (hvalueSide ?_ _) ?_)
      · intro k' hk'
        obtain rfl : k = k' := Option.some.inj (hk.symm.trans hk')
        exact hc
      · simp [pure, Except.pure]
    | true =>
      simp only [if_true]
      cases g.matchNode visits id (.pair key value) with
      | error f => rfl
      | ok ds =>
        -- The walk stops at complaints about unknown keys only, and this is none.
        have hne : ((objection k none ds).map (·.1) == some SchemaWarning.unknownKey) = false := by
          rw [← Bool.not_eq_true, beq_iff_eq]
          exact objection_ne_unknownKey k none ds
        simp only [Except.map, bind, Except.bind, hne, Bool.false_eq_true, if_false]
        rw [List.foldlM_append, hkeySide]
        cases value with
        | none => rfl
        | some v =>
          have hbelow : g.Inspects
              ⟨id + 1 + Tree.sizeOption key, ⟨id, .pair key (some v), .value⟩ :: above, v⟩ :=
            hinspects.cons (by decide) (fun _ => ⟨k, hk, hc⟩)
          have hvalue := ih _ _ v (r.note id (.pair key (some v)) (objection k none ds)) rfl
            hbelow
          rw [valueKey, hk] at hvalue
          exact hvalue

/-- Checking a tree is going through its places. -/
theorem checkFrom_eq {fuel : Nat} {above : List Link} {id : Nat} {t : Tree} (hfuel : t.size ≤ fuel)
    (hinspects : g.Inspects ⟨id, above, t⟩) (r : Report) :
    g.checkFrom visits fuel (valueKey above) id t r =
      (Tree.placesFrom above id t).foldlM (g.stepAt (g.matchNode visits)) r := by
  -- On the fuel, which bounds the size of the tree and so never runs out on the way.
  induction fuel generalizing above id t r with
  | zero =>
    have hpos := Tree.size_pos t
    omega
  | succ fuel ih =>
    have hsmaller : ∀ c ∈ t.children, c.size ≤ fuel := by
      intro c hc
      have hlt := Tree.size_lt_of_mem_children hc
      omega
    -- The entries of maps and sequences are values of no pair.
    have hentries : t.isPair = false → ∀ (i : Nat) (c : Tree) (r : Report), c ∈ t.children →
        g.checkFrom visits fuel none i c r =
          (Tree.placesFrom (⟨id, t, .entry⟩ :: above) i c).foldlM
            (g.stepAt (g.matchNode visits)) r := by
      intro hpair i c r hc
      have hkey : valueKey (⟨id, t, .entry⟩ :: above) = none := by
        simp [valueKey]
      rw [← hkey]
      refine ih (hsmaller c hc) (hinspects.cons (by decide) ?_) r
      intro hisPair
      simp [hpair] at hisPair
    cases t with
    | scalar i v raw style =>
      rw [checkFrom_scalar _ hinspects, Tree.placesFrom_eq, List.foldlM_cons]
      cases g.stepAt (g.matchNode visits) r ⟨id, above, .scalar i v raw style⟩ with
      | error f => rfl
      | ok r' => rfl
    | pair key value =>
      refine checkFrom_pair hinspects ?_ (valueKey above) r
      intro id' above' v r hv hinspects'
      refine ih (hsmaller v ?_) hinspects' r
      exact List.mem_append_right _ (Option.mem_toList.2 hv)
    | map i entries =>
      rw [Tree.placesFrom_eq, List.foldlM_cons, stepAt_of_other hinspects rfl rfl]
      exact foldlM_children rfl (hentries rfl) _
    | sequence i items =>
      rw [Tree.placesFrom_eq, List.foldlM_cons, stepAt_of_other hinspects rfl rfl]
      exact foldlM_children rfl (hentries rfl) _
    | «alias» i anchor target =>
      rw [Tree.placesFrom_eq, List.foldlM_cons, stepAt_of_other hinspects rfl rfl]
      exact foldlM_children rfl (hentries rfl) _

/-- Validating a document is going through its places from an empty report. -/
theorem validate_eq_foldlM (g : Graph) (d : Document) :
    g.validate d =
      (Tree.placesOf d.root).foldlM (g.stepAt (g.matchNode d.visits)) ⟨0, []⟩ := by
  cases hroot : d.root with
  | none => simp [validate, hroot, Tree.placesOf, pure, Except.pure]
  | some t =>
    have hlen : t.size ≤ d.visits.length + 1 := by
      simp [Document.visits, hroot, Tree.visitsOf, Tree.visits_eq_places, Tree.places]
    have hinspects : g.Inspects ⟨0, [], t⟩ := by
      intro l hl
      cases hl
    simp only [validate, hroot]
    exact checkFrom_eq hlen hinspects ⟨0, []⟩

/-! ## The loop -/

/-- A visit of the loop: what is noted and counted, and whether the node is to be entered. A key is
looked at through its pair, and nothing below an unknown key is. -/
def visit (g : Graph) (visits : List Tree.Visit) (r : Report) (p : Place) :
    Except GraphFault (Report × Bool) :=
  match p.node with
  | .scalar _ value _ _ =>
    if p.above.head?.any (·.side == .key) then .ok (r, false)
    else
      match valueKey p.above with
      | some k => do
        let c ← g.complaint? visits p.id p.node k (some value)
        let r := r.note p.id p.node c
        return ({ r with lines := r.lines + 1 }, true)
      | none => .ok ({ r with lines := r.lines + 1 }, true)
  | .pair .. =>
    match p.node.keyText? with
    | none => .ok (r, false)
    | some k => do
      let c ← g.complaint? visits p.id p.node k none
      return (r.note p.id p.node c, c.map (·.1) != some .unknownKey)
  | .map .. => .ok ({ r with lines := r.lines + 1 }, true)
  | _ => .ok (r, true)

/-- What is entered: no key, and of the pairs only those with a text key that has an entry. -/
def enters (g : Graph) (p : Place) : Bool :=
  !p.above.head?.any (·.side == .key) &&
    (!p.node.isPair || p.node.keyText?.any fun k => g.contains (.str k))

theorem visit_of_inspects {p : Place} (h : g.Inspects p) (r : Report) : g.visit visits r p =
    (fun r' => (r', g.enters p)) <$> g.stepAt (g.matchNode visits) r p := by
  have hside : p.above.head?.any (·.side == .key) = false := by
    cases habove : p.above with
    | nil => rfl
    | cons l rest => simpa using (h l (by simp [habove])).1
  rw [enters, hside]
  rcases p with ⟨id, above, t⟩
  cases t with
  | scalar i v raw style =>
    -- The recursion has been opened for scalars, and the visit reads the same.
    rw [← checkFrom_scalar 0 h]
    simp only [visit, hside, Bool.false_eq_true, if_false, checkFrom, Tree.isPair]
    cases valueKey above with
    | none => rfl
    | some k =>
      dsimp only
      cases g.complaint? visits id (.scalar i v raw style) k (some v) <;> rfl
  | pair key value =>
    simp only [visit, Tree.isPair]
    cases hk : (Tree.pair key value).keyText? with
    | none =>
      rw [stepAt_of_other h hk rfl]
      rfl
    | some k =>
      rw [stepAt_of_pair h hk]
      simp only [complaint?_eq]
      -- A key without an entry is the one objection that ends the way down.
      cases hc : g.contains (.str k) with
      | false => simp [hc, Except.map, bind, Except.bind, pure, Except.pure]
      | true =>
        simp only [if_true]
        cases g.matchNode visits id (.pair key value) with
        | error f => rfl
        | ok ds =>
          have hne := objection_ne_unknownKey k none ds
          simp [hc, hne, Except.map, bind, Except.bind, pure, Except.pure]
  | map i entries =>
    rw [stepAt_of_other h rfl rfl]
    rfl
  | _ =>
    rw [stepAt_of_other h rfl rfl]
    rfl

/-- What the loop can come to: the inspected places, and the keys of inspected pairs. -/
def Meets (g : Graph) (p : Place) : Prop :=
  g.Inspects p ∨ p.above.head?.any (·.side == .key) = true ∧
    ∃ info value raw style, p.node = .scalar info value raw style

theorem visit_eq {p : Place} (h : g.Meets p) (r : Report) : g.visit visits r p =
    (fun r' => (r', g.enters p)) <$> g.stepAt (g.matchNode visits) r p := by
  rcases h with hinspects | ⟨hkey, info, value, raw, style, hscalar⟩
  · exact visit_of_inspects hinspects r
  · have hnot : ¬ g.Inspects p := fun hinspects => by
      cases habove : p.above with
      | nil => simp [habove] at hkey
      | cons l rest => exact (hinspects l (by simp [habove])).1 (by simpa [habove] using hkey)
    rw [stepAt_of_not_inspects hnot, enters, hkey]
    simp only [visit, hscalar, hkey, if_true]
    rfl

/-- Nothing below a place that is not entered is inspected. -/
theorem not_inspects_of_not_enters {p : Place} (h : g.enters p = false) :
    ∀ q ∈ p.parts.flatMap fun q => Tree.placesFrom q.above q.id q.node, ¬ g.Inspects q := by
  intro q hq
  rcases List.mem_flatMap.1 hq with ⟨c, hc, hq⟩
  rcases List.mem_map.1 hc with ⟨b, -, rfl⟩
  cases hkey : p.above.head?.any (·.side == .key) with
  | true =>
    -- The chain leaves a pair further up on the key's side.
    cases habove : p.above with
    | nil => simp [habove] at hkey
    | cons l rest =>
      refine not_inspects_below (l := l) (by simp [habove]) ?_ q hq
      simp only [habove, List.head?_cons, Option.any_some, beq_iff_eq] at hkey
      exact fun hbad => hbad.1 hkey
  | false =>
    refine not_inspects_below List.mem_cons_self ?_ q hq
    rintro ⟨-, hpair⟩
    cases hisPair : p.node.isPair with
    | false => simp [enters, hkey, hisPair] at h
    | true =>
      rcases hpair hisPair with ⟨k, hk, hc⟩
      simp [enters, hkey, Option.mem_def.1 hk, hc] at h

theorem scalar_of_key_side {id : Nat} {t : Tree} {b : Tree.Branch} (hb : b ∈ Tree.branches id t)
    (hside : b.side = .key) (hk : t.isPair = true → t.keyText? ≠ none) :
    ∃ info value raw style, b.node = .scalar info value raw style := by
  cases t with
  | pair key value =>
    rcases List.mem_append.1 hb with hb | hb
    · rcases List.mem_map.1 hb with ⟨c, hc, rfl⟩
      obtain rfl := Option.mem_toList.1 hc
      cases c with
      | scalar info value raw style => exact ⟨info, value, raw, style, rfl⟩
      | _ => exact absurd rfl (hk rfl)
    · rcases List.mem_map.1 hb with ⟨c, -, rfl⟩
      cases hside
  | _ =>
    rcases List.mem_map.1 hb with ⟨c, -, rfl⟩
    cases hside

theorem meets_parts {p c : Place} (h : g.Meets p) (henters : g.enters p = true) (hc : c ∈ p.parts) :
    g.Meets c := by
  simp only [enters, Bool.and_eq_true, Bool.not_eq_true'] at henters
  rcases h with hinspects | ⟨hkey, -⟩
  · rcases List.mem_map.1 hc with ⟨b, hb, rfl⟩
    have hpair : p.node.isPair = true → ∃ k ∈ p.node.keyText?, g.contains (.str k) = true := by
      intro hisPair
      simpa [hisPair, Option.any_eq_true] using henters.2
    by_cases hside : b.side = .key
    · refine Or.inr ⟨by simp [hside], scalar_of_key_side hb hside fun hisPair hnone => ?_⟩
      rcases hpair hisPair with ⟨k, hk, -⟩
      simp [hnone] at hk
    · exact Or.inl (hinspects.cons hside hpair)
  · rw [henters.1] at hkey
    cases hkey

/-- Validating a document is a loop with a stack. -/
theorem validate_eq_drain (g : Graph) (d : Document) : g.validate d =
    Place.branching.drain (g.visit d.visits) ⟨0, []⟩ (d.root.toList.map fun t => ⟨0, [], t⟩) := by
  have hdown : ∀ (r : Report) (p : Place), g.Meets p →
      (Tree.placesFrom p.above p.id p.node).foldlM (g.stepAt (g.matchNode d.visits)) r =
        g.stepAt (g.matchNode d.visits) r p >>= fun r' =>
          if g.enters p then p.parts.foldlM (fun r p => (Tree.placesFrom p.above p.id p.node).foldlM
            (g.stepAt (g.matchNode d.visits)) r) r'
          else pure r' := by
    intro r p _
    rw [Tree.Place.placesFrom_eq_parts, List.foldlM_cons]
    refine bind_congr fun r' => ?_
    cases henters : g.enters p with
    | false => exact foldlM_of_not_inspects (not_inspects_of_not_enters henters) r'
    | true => exact Outcome.foldlM_flatMap ..
  have hroot : ∀ p ∈ d.root.toList.map fun t => (⟨0, [], t⟩ : Place), g.Meets p := by
    intro p hp
    rcases List.mem_map.1 hp with ⟨t, -, rfl⟩
    exact Or.inl fun l hl => by cases hl
  rw [validate_eq_foldlM, Place.branching.drain_eq (fun r p h => visit_eq h r) hdown
    (fun p h henters c hc => meets_parts h henters hc) _ _ hroot]
  cases d.root with
  | none => rfl
  | some t => simp [Tree.placesOf, Tree.places]

end Walk

end Graph
end YamlServer
