import YamlServer.Proofs.Graph.Exploration

/-!
# Entering properties again

A property that is entered has its name and its definitions in the graph, and they stay there. So to
enter it a second time changes nothing, and the same holds of all the properties of a schema,
whatever was entered in between and whatever values their names are.

* `Graph.enterAll`: entering properties without a bound on their depth.
* `Graph.enterAll_of_settled`: entering settled properties changes nothing.
-/

namespace YamlServer

@[simp]
theorem Definition.same_self (d : Definition) : d.same d = true := by
  simp [Definition.same]

namespace Graph

open Outcome

/-! ## Entries -/

section Entries

variable {name name' : Value} {f : List Definition → List Definition}
  {es : List (Value × List Definition)} {old ds : List Definition}

theorem exists_find?_update (name : Value) (f : List Definition → List Definition)
    (es : List (Value × List Definition)) :
    ∃ old, find? name (update name f es) = some (f old) := by
  induction es with
  | nil => exact ⟨[], by simp [update, find?]⟩
  | cons e rest ih =>
    rcases e with ⟨k, ds⟩
    rcases ih with ⟨old, hold⟩
    by_cases hsame : Value.same k name = true
    · exact ⟨ds, by simp [update, find?, hsame]⟩
    · exact ⟨old, by simpa [update, find?, hsame] using hold⟩

/-- A change that takes nothing away leaves every name what it has. -/
theorem exists_find?_update_of_find? (hf : ∀ ds, ds ⊆ f ds) (h : find? name' es = some old) :
    ∃ new, find? name' (update name f es) = some new ∧ old ⊆ new := by
  induction es with
  | nil => cases h
  | cons e rest ih =>
    rcases e with ⟨k, ds⟩
    rw [find?] at h
    rw [update]
    split at h
    · rename_i hsame
      cases h
      split
      · exact ⟨f old, by rw [find?, if_pos hsame], hf old⟩
      · exact ⟨old, by rw [find?, if_pos hsame], List.Subset.refl old⟩
    · rename_i hother
      split
      · exact ⟨old, by rwa [find?, if_neg hother], List.Subset.refl old⟩
      · rcases ih h with ⟨new, hnew, hsub⟩
        exact ⟨new, by rwa [find?, if_neg hother], hsub⟩

theorem update_eq_self (h : find? name es = some old) (hf : f old = old) :
    update name f es = es := by
  induction es with
  | nil => cases h
  | cons e rest ih =>
    rcases e with ⟨k, ds⟩
    rw [find?] at h
    rw [update]
    split at h
    · rename_i hsame
      cases h
      rw [if_pos hsame, hf]
    · rename_i hother
      rw [if_neg hother, ih h]

theorem subset_foldl_addDefinition (ds old : List Definition) :
    old ⊆ ds.foldl (fun acc d => addDefinition d acc) old := by
  induction ds generalizing old with
  | nil => exact List.Subset.refl old
  | cons d ds ih => exact List.Subset.trans (subset_addDefinition d old) (ih (addDefinition d old))

/-- Whatever is added has an equal one afterwards. -/
theorem any_foldl_addDefinition (old : List Definition) {d : Definition} (hd : d ∈ ds) :
    (ds.foldl (fun acc d => addDefinition d acc) old).any d.same = true := by
  induction ds generalizing old with
  | nil => cases hd
  | cons d' ds ih =>
    rcases List.mem_cons.1 hd with rfl | hd
    · have hown : (addDefinition d old).any d.same = true := by
        unfold addDefinition
        split
        · assumption
        · simp
      rcases List.any_eq_true.1 hown with ⟨e, he, hsame⟩
      exact List.any_eq_true.2 ⟨e, subset_foldl_addDefinition ds _ he, hsame⟩
    · exact ih (addDefinition d' old) hd

theorem foldl_addDefinition_eq_self (h : ∀ d ∈ ds, old.any d.same = true) :
    ds.foldl (fun acc d => addDefinition d acc) old = old := by
  induction ds with
  | nil => rfl
  | cons d ds ih =>
    have hown : addDefinition d old = old := if_pos (h d List.mem_cons_self)
    rw [List.foldl_cons, hown]
    exact ih fun d' hd' => h d' (List.mem_cons_of_mem _ hd')

end Entries

/-! ## Uses that are settled -/

/-- Entering a use changes nothing. -/
def Settled (g : Graph) (u : Use) : Prop :=
  enter u.name u.types u.children g = .ok g

/-- The name has definitions, among them one that equals each of the given ones. -/
def Has (g : Graph) (name : Value) (ds : List Definition) : Prop :=
  ∃ old, find? name g.entries = some old ∧ ∀ d ∈ ds, old.any d.same = true

section Settled

variable {g g' : Graph} {name : Value} {types children : List Value}

/-- What entering a use does: it adds a definition for each type, after which the graph has them. -/
theorem exists_has_of_enter (h : enter name types children g = .ok g') :
    ∃ ds, (∀ k : Graph, k.Has name ds → k.Settled ⟨name, types, children⟩) ∧ g'.Has name ds ∧
      ∀ other ds', g.Has other ds' → g'.Has other ds' := by
  rcases bind_eq_ok.1 h with ⟨ds, hds, hlast⟩
  cases hlast
  refine ⟨ds, ?_, ?_, ?_⟩
  · rintro k ⟨old, hold, hall⟩
    have hsame := update_eq_self (f := fun old => ds.foldl (fun acc d => addDefinition d acc) old)
      hold (foldl_addDefinition_eq_self hall)
    exact bind_eq_ok.2 ⟨ds, hds, congrArg (fun es => Except.ok (Graph.mk es)) hsame⟩
  · rcases exists_find?_update name (fun old => ds.foldl (fun acc d => addDefinition d acc) old)
      g.entries with ⟨old, hold⟩
    exact ⟨_, hold, fun d hd => any_foldl_addDefinition old hd⟩
  -- Definitions are only added.
  · rintro other ds' ⟨old, hold, hall⟩
    rcases exists_find?_update_of_find? (subset_foldl_addDefinition ds) hold with ⟨new, hnew, hsub⟩
    refine ⟨new, hnew, fun d hd => ?_⟩
    rcases List.any_eq_true.1 (hall d hd) with ⟨e, he, hsame⟩
    exact List.any_eq_true.2 ⟨e, hsub he, hsame⟩

theorem settled_of_enter (h : enter name types children g = .ok g') :
    g'.Settled ⟨name, types, children⟩ := by
  rcases exists_has_of_enter h with ⟨ds, hsettled, hhas, -⟩
  exact hsettled g' hhas

theorem Settled.enter {u : Use} (hu : g.Settled u) (h : enter name types children g = .ok g') :
    g'.Settled u := by
  rcases exists_has_of_enter hu with ⟨ds, hsettled, hhas, -⟩
  rcases exists_has_of_enter h with ⟨-, -, -, hmono⟩
  exact hsettled g' (hmono _ _ hhas)

end Settled

/-! ## Entering all properties -/

def enterAll (properties : List (Value × Value)) (g : Graph) : Except GraphFault Graph :=
  enterProperties (depthEntries properties + 1) properties g

section All

variable {properties rest below : List (Value × Value)} {v : Value} {types : List Value}
  {g g' : Graph} {fuel fuel' : Nat}

/-- The properties below one are less deep than any list it is in. -/
theorem depthEntries_below_lt (h : openValue? v = some (types, below)) (name : Value)
    (rest : List (Value × Value)) : depthEntries below < depthEntries ((name, v) :: rest) := by
  rcases openValue?_eq_some h with ⟨schema, rfl, -, rfl⟩
  have hnested := depthEntries_nestedProperties_le schema
  rw [depthEntries, depth]
  omega

/-- Properties of finite depth, one after another: what holds of the properties below one and of
those after it holds of all of them. -/
theorem properties_induction {motive : List (Value × Value) → Prop} (nil : motive [])
    (closed : ∀ name v rest, openValue? v = none → motive rest → motive ((name, v) :: rest))
    (opened : ∀ name v rest types below, openValue? v = some (types, below) → motive below →
      motive rest → motive ((name, v) :: rest)) (properties : List (Value × Value)) :
    motive properties := by
  suffices hbounded : ∀ n properties, depthEntries properties < n → motive properties from
    hbounded _ properties (Nat.lt_succ_self _)
  intro n
  induction n with
  | zero => exact fun _ h => absurd h (Nat.not_lt_zero _)
  | succ n ih =>
    intro properties
    induction properties with
    | nil => exact fun _ => nil
    | cons e rest ihrest =>
      rcases e with ⟨name, v⟩
      intro h
      have hrest := ihrest ((Nat.le_max_right _ _).trans_lt h)
      cases hopen : openValue? v with
      | none => exact closed name v rest hopen hrest
      | some part =>
        rcases part with ⟨types, below⟩
        have hbelow := depthEntries_below_lt hopen name rest
        exact opened name v rest types below hopen (ih below (by omega)) hrest

theorem enterProperties_cons (h : openValue? v = some (types, below)) (fuel : Nat) (name : Value)
    (rest : List (Value × Value)) (g : Graph) :
    enterProperties (fuel + 1) ((name, v) :: rest) g =
      enter name types (below.map (·.1)) g >>= enterProperties fuel below >>=
        enterProperties (fuel + 1) rest := by
  rcases openValue?_eq_some h with ⟨schema, rfl, rfl, rfl⟩
  rw [enterProperties, List.foldlM_cons]
  rfl

theorem enterProperties_cons_of_none (h : openValue? v = none) (fuel : Nat) (name : Value)
    (rest : List (Value × Value)) (g : Graph) :
    enterProperties (fuel + 1) ((name, v) :: rest) g = enterProperties (fuel + 1) rest g := by
  cases v with
  | map schema => cases h
  | _ =>
    rw [enterProperties, List.foldlM_cons]
    rfl

/-- Any bound above the depth of the properties gives the same. -/
theorem enterProperties_congr (h : depthEntries properties < fuel)
    (h' : depthEntries properties < fuel') (g : Graph) :
    enterProperties fuel properties g = enterProperties fuel' properties g := by
  induction properties using properties_induction generalizing fuel fuel' g with
  | nil => cases fuel <;> cases fuel' <;> rfl
  | closed name v rest hopen ih =>
    obtain ⟨n, rfl⟩ := Nat.exists_eq_succ_of_ne_zero (Nat.ne_zero_of_lt h)
    obtain ⟨m, rfl⟩ := Nat.exists_eq_succ_of_ne_zero (Nat.ne_zero_of_lt h')
    have hrest : depthEntries rest ≤ depthEntries ((name, v) :: rest) := Nat.le_max_right _ _
    rw [enterProperties_cons_of_none hopen, enterProperties_cons_of_none hopen]
    exact ih (hrest.trans_lt h) (hrest.trans_lt h') g
  | opened name v rest types below hopen ihbelow ihrest =>
    obtain ⟨n, rfl⟩ := Nat.exists_eq_succ_of_ne_zero (Nat.ne_zero_of_lt h)
    obtain ⟨m, rfl⟩ := Nat.exists_eq_succ_of_ne_zero (Nat.ne_zero_of_lt h')
    have hrest : depthEntries rest ≤ depthEntries ((name, v) :: rest) := Nat.le_max_right _ _
    have hbelow := depthEntries_below_lt hopen name rest
    have hdeeper : enterProperties n below = enterProperties m below :=
      funext fun g => ihbelow (by omega) (by omega) g
    have hothers : enterProperties (n + 1) rest = enterProperties (m + 1) rest :=
      funext fun g => ihrest (hrest.trans_lt h) (hrest.trans_lt h') g
    rw [enterProperties_cons hopen, enterProperties_cons hopen, hdeeper, hothers]

theorem enterProperties_eq_enterAll (h : depthEntries properties < fuel) :
    enterProperties fuel properties = enterAll properties :=
  funext fun g => enterProperties_congr h (Nat.lt_succ_self _) g

theorem enterAll_cons (h : openValue? v = some (types, below)) (name : Value)
    (rest : List (Value × Value)) (g : Graph) :
    enterAll ((name, v) :: rest) g =
      enter name types (below.map (·.1)) g >>= enterAll below >>= enterAll rest := by
  have hbelow := depthEntries_below_lt h name rest
  have hrest : depthEntries rest ≤ depthEntries ((name, v) :: rest) := Nat.le_max_right _ _
  rw [enterAll, enterProperties_cons h, enterProperties_eq_enterAll hbelow,
    enterProperties_eq_enterAll (Nat.lt_succ_of_le hrest)]

theorem enterAll_cons_of_none (h : openValue? v = none) (name : Value)
    (rest : List (Value × Value)) (g : Graph) :
    enterAll ((name, v) :: rest) g = enterAll rest g := by
  have hrest : depthEntries rest ≤ depthEntries ((name, v) :: rest) := Nat.le_max_right _ _
  rw [enterAll, enterProperties_cons_of_none h,
    enterProperties_eq_enterAll (Nat.lt_succ_of_le hrest)]

/-- The graph of a schema is that of the properties below it. -/
theorem ofJsonSchema_eq_enterAll (members : List (Value × Value)) :
    ofJsonSchema (.map members) = enterAll (nestedProperties members) ⟨[]⟩ := by
  have hnested := depthEntries_nestedProperties_le members
  have hdepth : depthEntries (nestedProperties members) < depth (.map members) + 1 := by
    rw [depth]
    omega
  rw [ofJsonSchema, enterProperties_eq_enterAll hdepth]

/-- What was settled stays so, and what is entered is settled. -/
theorem settled_of_enterAll (h : enterAll properties g = .ok g') :
    (∀ u, g.Settled u → g'.Settled u) ∧ ∀ u, UsedIn openValue? properties u → g'.Settled u := by
  induction properties using properties_induction generalizing g g' with
  | nil =>
    cases h
    exact ⟨fun _ hu => hu, fun _ hu => absurd hu not_usedIn_nil⟩
  | closed name v rest hopen ih =>
    rw [enterAll_cons_of_none hopen] at h
    refine ⟨(ih h).1, fun u hu => (ih h).2 u ?_⟩
    rwa [usedIn_cons_of_none hopen] at hu
  | opened name v rest types below hopen ihbelow ihrest =>
    rw [enterAll_cons hopen] at h
    rcases bind_eq_ok.1 h with ⟨g₂, hfirst, hrest⟩
    rcases bind_eq_ok.1 hfirst with ⟨g₁, henter, hbelow⟩
    have hown := settled_of_enter henter
    rcases ihbelow hbelow with ⟨hmono₁, hused₁⟩
    rcases ihrest hrest with ⟨hmono₂, hused₂⟩
    refine ⟨fun u hu => hmono₂ u (hmono₁ u (hu.enter henter)), ?_⟩
    intro u hu
    rcases (usedIn_cons hopen).1 hu with rfl | hu | hu
    · exact hmono₂ _ (hmono₁ _ hown)
    · exact hmono₂ u (hused₁ u hu)
    · exact hused₂ u hu

/-- Entering properties whose uses are settled changes nothing. -/
theorem enterAll_of_settled (h : ∀ u, UsedIn openValue? properties u → g.Settled u) :
    enterAll properties g = .ok g := by
  induction properties using properties_induction with
  | nil => rfl
  | closed name v rest hopen ih =>
    rw [enterAll_cons_of_none hopen]
    exact ih fun u hu => h u ((usedIn_cons_of_none hopen).2 hu)
  | opened name v rest types below hopen ihbelow ihrest =>
    have hown := h ⟨name, types, below.map (·.1)⟩ ((usedIn_cons hopen).2 (Or.inl rfl))
    have hbelow := ihbelow fun u hu => h u ((usedIn_cons hopen).2 (Or.inr (Or.inl hu)))
    have hrest := ihrest fun u hu => h u ((usedIn_cons hopen).2 (Or.inr (Or.inr hu)))
    rw [enterAll_cons hopen]
    exact bind_eq_ok.2 ⟨g, bind_eq_ok.2 ⟨g, hown, hbelow⟩, hrest⟩

end All

end Graph
end YamlServer
