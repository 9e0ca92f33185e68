import Mathlib.Data.Finset.Card
import Mathlib.Logic.Relation
import YamlServer.Proofs.Tree.Place
import YamlServer.Tree.Data

/-!
# Following aliases

Reading the data of a tree leaves the tree where it comes to an alias: it goes on with the node that
the alias names, which may be anywhere, also around the alias. The nodes that are being read are
remembered, and one that is met again is null. Thus no node is opened twice on the way down, and the
reading has an end in any tree.

Where no node leads back to itself, what is remembered does not matter. Every node being read leads
to the current one, so that meeting it again would be a cycle. The data is then that of a recursion
which remembers nothing and puts the value of its target in the place of each alias.

* `Tree.data_by_recursion`: the data of every node of every tree, by recursion.
-/

namespace YamlServer
namespace Tree

/-! ## One level -/

section Level

variable (visits : List Visit) (part : Nat × Tree → Value)

def optional (id : Nat) : Option Tree → Value
  | some t => part (id, t)
  | none => .null

def setPair (acc : List (Value × Value)) (numbered : Nat × Tree) : List (Value × Value) :=
  match numbered.2 with
  | .pair key value =>
    Value.put (keyOf (optional part (numbered.1 + 1) key))
      (optional part (numbered.1 + 1 + sizeOption key) value) acc
  | _ => acc

def named? : Option Nat → Option (Nat × Tree)
  | some target => (nodeAt? visits target).map fun t => (target, t)
  | none => none

/-- The value of the node numbered `id`, from those of the nodes it is made of. -/
def level (id : Nat) : Tree → Value
  | .scalar _ value _ _ => value
  | .alias _ _ target => ((named? visits target).map part).getD .null
  | .sequence _ items => .list ((numberFrom (id + 1) items).map part)
  | .map _ entries => .map ((numberFrom (id + 1) entries).foldl (setPair part) [])
  | .pair _ _ => .null

/-- The nodes that the value of a node is made of: items, keys and values, or what an alias
names. -/
def onward (id : Nat) : Tree → List (Nat × Tree)
  | .alias _ _ target => (named? visits target).toList
  | .sequence _ items => numberFrom (id + 1) items
  | .map _ entries =>
    ((numberFrom (id + 1) entries).filter fun e => e.2.isPair).flatMap fun e =>
      e.2.numberedChildren e.1
  | _ => []

end Level

variable {visits : List Visit} {part part' : Nat × Tree → Value} {id : Nat} {t : Tree}

theorem optional_congr {key value : Option Tree}
    (h : ∀ c ∈ (Tree.pair key value).numberedChildren id, part c = part' c) :
    optional part (id + 1) key = optional part' (id + 1) key ∧
      optional part (id + 1 + sizeOption key) value =
        optional part' (id + 1 + sizeOption key) value := by
  rw [← map_branches] at h
  constructor
  · cases key with
    | none => rfl
    | some k => exact h _ (by simp [branches])
  · cases value with
    | none => rfl
    | some v => exact h _ (by simp [branches])

theorem foldl_setPair_congr {entries : List (Nat × Tree)} (acc : List (Value × Value))
    (h : ∀ e ∈ entries, e.2.isPair = true → ∀ c ∈ e.2.numberedChildren e.1, part c = part' c) :
    entries.foldl (setPair part) acc = entries.foldl (setPair part') acc := by
  induction entries generalizing acc with
  | nil => rfl
  | cons e rest ih =>
    have hown : setPair part acc e = setPair part' acc e := by
      have hparts := h e List.mem_cons_self
      rcases e with ⟨i, t⟩
      cases t with
      | pair key value =>
        rcases optional_congr (hparts rfl) with ⟨hkey, hvalue⟩
        simp only [setPair]
        rw [hkey, hvalue]
      | _ => rfl
    rw [List.foldl_cons, List.foldl_cons, hown]
    exact ih _ fun e' he' => h e' (List.mem_cons_of_mem _ he')

/-- A level depends on the nodes it goes on with, and on no others. -/
theorem level_congr (h : ∀ c ∈ onward visits id t, part c = part' c) :
    level visits part id t = level visits part' id t := by
  cases t with
  | scalar info value raw style => rfl
  | pair key value => rfl
  | map info entries =>
    refine congrArg Value.map (foldl_setPair_congr [] ?_)
    intro e he hpair c hc
    exact h c (List.mem_flatMap.2 ⟨e, List.mem_filter.2 ⟨he, hpair⟩, hc⟩)
  | sequence info items => exact congrArg Value.list (List.map_congr_left h)
  | «alias» info name target =>
    rw [level, level]
    cases hnamed : named? visits target with
    | none => rfl
    | some c => exact h c (by simp [onward, hnamed])

theorem dataFrom_succ (fuel : Nat) (active : List Nat) (id : Nat) (t : Tree) :
    dataFrom visits (fuel + 1) active id t =
      if id ∈ active then .null
      else level visits (fun c => dataFrom visits fuel (id :: active) c.1 c.2) id t := by
  rw [dataFrom]
  simp only [List.contains_eq_mem, decide_eq_true_eq]
  split
  · rfl
  · cases t with
    | «alias» info name target =>
      cases target with
      | none => rfl
      | some n =>
        simp only [level, named?]
        cases nodeAt? visits n <;> rfl
    | _ => rfl

/-! ## Reading -/

/-- The value of a node while the nodes in `active` are being read: null if it is one of them, and
else what its level makes of the values of the nodes it goes on with. -/
inductive Reads (visits : List Visit) : List Nat → Nat → Tree → Value → Prop where
  | again {active : List Nat} {id : Nat} {t : Tree} : id ∈ active → Reads visits active id t .null
  | open {active : List Nat} {id : Nat} {t : Tree} {part : Nat × Tree → Value} : id ∉ active →
      (∀ c ∈ onward visits id t, Reads visits (id :: active) c.1 c.2 (part c)) →
      Reads visits active id t (level visits part id t)

/-- The value of a node without regard to what is being read. An alias has that of its target. -/
inductive Means (visits : List Visit) : Nat → Tree → Value → Prop where
  | open {id : Nat} {t : Tree} {part : Nat × Tree → Value} :
      (∀ c ∈ onward visits id t, Means visits c.1 c.2 (part c)) →
      Means visits id t (level visits part id t)

variable {active : List Nat} {v v' : Value}

theorem Reads.unique (h : Reads visits active id t v) (h' : Reads visits active id t v') :
    v = v' := by
  induction h generalizing v' with
  | again hid =>
    cases h' with
    | again _ => rfl
    | «open» hnew _ => exact absurd hid hnew
  | «open» hnew _ ih =>
    cases h' with
    | again hid => exact absurd hid hnew
    | «open» _ hparts => exact level_congr fun c hc => ih c hc (hparts c hc)

theorem Means.unique (h : Means visits id t v) (h' : Means visits id t v') : v = v' := by
  induction h generalizing v' with
  | «open» _ ih =>
    cases h' with
    | «open» hparts => exact level_congr fun c hc => ih c hc (hparts c hc)

def unread (visits : List Visit) (active : List Nat) : Nat :=
  (Finset.range visits.length \ active.toFinset).card

theorem unread_cons_lt (hid : id < visits.length) (hnew : id ∉ active) :
    unread visits (id :: active) < unread visits active := by
  rw [unread, unread, List.toFinset_cons, Finset.sdiff_insert]
  refine Finset.card_erase_lt_of_mem ?_
  simp [hid, hnew]

/-! ## Nodes that lead to each other -/

section Leading

variable {root : Tree} {i j : Nat} {c : Tree}

/-- One step from a node: to a child, or from an alias to its target. -/
def StepsTo (root : Tree) (i j : Nat) : Prop :=
  ∃ t, nodeAt? root.visits i = some t ∧
    (j ∈ (t.numberedChildren i).map (·.1) ∨ t.target? = some j)

/-- No node leads to itself, in any number of steps. -/
def Acyclic (root : Tree) : Prop :=
  ∀ i, ¬ Relation.TransGen root.StepsTo i i

/-- A tree is acyclic if its nodes can be ranked so that each leads to lower ones only. -/
theorem acyclic_of_rank (rank : Nat → Nat)
    (h : ∀ i < root.visits.length, ∀ t ∈ nodeAt? root.visits i,
      (∀ e ∈ t.numberedChildren i, rank e.1 < rank i) ∧ ∀ j ∈ t.target?, rank j < rank i) :
    root.Acyclic := by
  have hstep : ∀ i j, root.StepsTo i j → rank i > rank j := by
    rintro i j ⟨t, ht, hj⟩
    rcases Option.map_eq_some_iff.1 ht with ⟨w, hw, -⟩
    rcases h i (List.getElem?_eq_some_iff.1 hw).1 t ht with ⟨hchildren, htarget⟩
    rcases hj with hj | hj
    · rcases List.mem_map.1 hj with ⟨e, he, rfl⟩
      exact hchildren e he
    · exact htarget j hj
  intro i hcycle
  have hdown : Relation.TransGen (· > ·) (rank i) (rank i) := hcycle.lift rank hstep
  rw [Relation.transGen_eq_self] at hdown
  exact Nat.lt_irrefl _ hdown

theorem lt_length_of_nodeAt? (h : nodeAt? visits i = some t) : i < visits.length := by
  rcases Option.map_eq_some_iff.1 h with ⟨w, hw, -⟩
  exact (List.getElem?_eq_some_iff.1 hw).1

/-- A child of a node stands at its number, one step from the node. -/
theorem nodeAt?_child (h : nodeAt? root.visits i = some t) (hc : (j, c) ∈ t.numberedChildren i) :
    nodeAt? root.visits j = some c ∧ root.StepsTo i j := by
  refine ⟨?_, t, h, Or.inl (List.mem_map_of_mem hc)⟩
  rcases exists_place h with ⟨p, hp, rfl, rfl⟩
  rw [← map_branches] at hc
  rcases List.mem_map.1 hc with ⟨b, hb, heq⟩
  cases heq
  exact nodeAt?_place (place_below hp hb)

/-- What the reading of a node goes on with stands at its number, some steps from the node. -/
theorem nodeAt?_onward (h : nodeAt? root.visits i = some t) (hc : (j, c) ∈ onward root.visits i t) :
    nodeAt? root.visits j = some c ∧ Relation.TransGen root.StepsTo i j := by
  cases t with
  | scalar info value raw style => cases hc
  | pair key value => cases hc
  | sequence info items =>
    rcases nodeAt?_child h hc with ⟨hat, hsteps⟩
    exact ⟨hat, .single hsteps⟩
  | map info entries =>
    -- From the map to the pair, and from there to its key or value.
    rcases List.mem_flatMap.1 hc with ⟨⟨k, pair⟩, hpair, hc⟩
    rcases nodeAt?_child h (List.mem_filter.1 hpair).1 with ⟨hat, hsteps⟩
    rcases nodeAt?_child hat hc with ⟨hat', hsteps'⟩
    exact ⟨hat', .tail (.single hsteps) hsteps'⟩
  | «alias» info name target =>
    cases target with
    | none => cases hc
    | some n =>
      rcases Option.map_eq_some_iff.1 (Option.mem_toList.1 hc) with ⟨u, hu, heq⟩
      cases heq
      exact ⟨hu, .single ⟨_, h, Or.inr rfl⟩⟩

end Leading

/-! ## The outcome of reading -/

section Outcome

variable {root : Tree}

/-- Each level adds a node to those being read, so that a bound above the number of the others is
never reached. -/
theorem reads_dataFrom {fuel : Nat} (h : nodeAt? root.visits id = some t)
    (hfuel : unread root.visits active < fuel) :
    Reads root.visits active id t (dataFrom root.visits fuel active id t) := by
  induction fuel generalizing active id t with
  | zero => exact absurd hfuel (Nat.not_lt_zero _)
  | succ fuel ih =>
    rw [dataFrom_succ]
    split
    · rename_i hid
      exact .again hid
    · rename_i hnew
      refine .open hnew ?_
      rintro ⟨j, c⟩ hc
      have hless := unread_cons_lt (lt_length_of_nodeAt? h) hnew
      exact ih (nodeAt?_onward h hc).1 (by omega)

/-- The reading has an end and one outcome, which the reading with enough depth gives. -/
theorem reads_iff {fuel : Nat} (h : nodeAt? root.visits id = some t)
    (hfuel : unread root.visits active < fuel) :
    Reads root.visits active id t v ↔ v = dataFrom root.visits fuel active id t := by
  have hreads := reads_dataFrom h hfuel
  constructor
  · intro hv
    exact hv.unique hreads
  · rintro rfl
    exact hreads

/-- Where no node leads to itself, nothing that is being read is met again: all of it leads to the
current node. -/
theorem Reads.means (h : Reads root.visits active id t v) (hacyclic : root.Acyclic)
    (hat : nodeAt? root.visits id = some t)
    (hactive : ∀ x ∈ active, Relation.TransGen root.StepsTo x id) : Means root.visits id t v := by
  induction h with
  | @again active id t hid => exact absurd (hactive id hid) (hacyclic id)
  | @«open» active id t part _ _ ih =>
    refine .open ?_
    rintro ⟨j, c⟩ hc
    rcases nodeAt?_onward hat hc with ⟨hatc, hsteps⟩
    refine ih (j, c) hc hatc ?_
    intro x hx
    rcases List.mem_cons.1 hx with rfl | hx
    · exact hsteps
    · exact (hactive x hx).trans hsteps

theorem unread_nil_lt (visits : List Visit) : unread visits [] < visits.length + 1 := by
  simp [unread]

theorem reads_dataAt (h : nodeAt? root.visits id = some t) :
    Reads root.visits [] id t (dataAt root.visits id t) :=
  reads_dataFrom h (unread_nil_lt root.visits)

/-- Without cycles the data of a node is what the recursion gives. -/
theorem means_iff (hacyclic : root.Acyclic) (h : nodeAt? root.visits id = some t) :
    Means root.visits id t v ↔ v = dataAt root.visits id t := by
  have hmeans : Means root.visits id t (dataAt root.visits id t) :=
    (reads_dataAt h).means hacyclic h fun x hx => absurd hx List.not_mem_nil
  constructor
  · intro hv
    exact hv.unique hmeans
  · rintro rfl
    exact hmeans

/-- Without cycles the data of a node is one level on the data of the nodes it goes on with. -/
theorem dataAt_eq_level (hacyclic : root.Acyclic) (h : nodeAt? root.visits id = some t) :
    dataAt root.visits id t =
      level root.visits (fun c => dataAt root.visits c.1 c.2) id t := by
  refine ((means_iff hacyclic h).1 (.open ?_)).symm
  rintro ⟨j, c⟩ hc
  exact (means_iff hacyclic (nodeAt?_onward h hc).1).2 rfl

/-- The data of every node of every tree is what the reading gives, whatever its aliases name, and
the reading has an end from any state. Where no node leads to itself, the data of a node is that of
the recursion which remembers nothing, whichever nodes are being read when it is reached; and an
alias has the data of its target. -/
theorem data_by_recursion (root : Tree) :
    (∀ id t active, nodeAt? root.visits id = some t →
        ∃ v, ∀ v', Reads root.visits active id t v' ↔ v' = v) ∧
      (∀ id t, nodeAt? root.visits id = some t →
        Reads root.visits [] id t (dataAt root.visits id t)) ∧
      (root.Acyclic → ∀ id t, nodeAt? root.visits id = some t →
        (∀ active, (∀ x ∈ active, Relation.TransGen root.StepsTo x id) →
          ∀ v, Reads root.visits active id t v ↔ Means root.visits id t v) ∧
        (∀ v, Means root.visits id t v ↔ v = dataAt root.visits id t) ∧
        ∀ n u, t.target? = some n → nodeAt? root.visits n = some u →
          dataAt root.visits id t = dataAt root.visits n u) := by
  refine ⟨?_, fun id t h => reads_dataAt h, ?_⟩
  · intro id t active h
    exact ⟨_, fun v' => reads_iff h (Nat.lt_succ_self _)⟩
  · intro hacyclic id t h
    refine ⟨?_, fun v => means_iff hacyclic h, ?_⟩
    · intro active hactive v
      refine ⟨fun hv => hv.means hacyclic h hactive, fun hv => ?_⟩
      -- There is an outcome, and it is the value that the recursion gives.
      have hreads := reads_dataFrom h (Nat.lt_succ_self (unread root.visits active))
      rw [hv.unique (hreads.means hacyclic h hactive)]
      exact hreads
    · intro n u htarget hu
      cases t with
      | «alias» info name target =>
          obtain rfl : target = some n := htarget
          rw [dataAt_eq_level hacyclic h, level, named?, hu]
          rfl
      | _ => cases htarget

def listNamedAgain : Tree :=
  let scalar (v : Value) (raw : String) : Tree := .scalar default v raw none
  .map default
    [.pair (some (scalar (.str "a") "a")) (some (.sequence default [scalar (.int 1) "1"])),
    .pair (some (scalar (.str "b") "b")) (some (.alias default "x" (some 3)))]

theorem data_by_recursion_listNamedAgain :
    listNamedAgain.Acyclic ∧ ∃ again list, nodeAt? listNamedAgain.visits 7 = some again ∧
      nodeAt? listNamedAgain.visits 3 = some list ∧
      dataAt listNamedAgain.visits 7 again = dataAt listNamedAgain.visits 3 list ∧
      (dataAt listNamedAgain.visits 7 again).text = "[1]" := by
  have hacyclic : listNamedAgain.Acyclic := by
    refine acyclic_of_rank (fun i => [9, 2, 0, 1, 0, 3, 0, 2].getD i 0) ?_
    decide +kernel
  refine ⟨hacyclic, .alias default "x" (some 3),
    .sequence default [.scalar default (.int 1) "1" none], rfl, rfl, ?_, by decide +kernel⟩
  exact ((data_by_recursion listNamedAgain).2.2 hacyclic 7 _ rfl).2.2 3 _ rfl rfl

-- A list that holds itself is null inside itself.
example : (data (some (.sequence default [.alias default "x" (some 0)]))).text = "[None]" := by
  decide +kernel

end Outcome

end Tree
end YamlServer
