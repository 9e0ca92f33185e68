import Mathlib.Tactic.SplitIfs
import YamlServer.Proofs.Outcome
import YamlServer.Proofs.Value
import YamlServer.Schema.Check

/-!
# Answers of schemas without references

Checking goes down from a schema to its parts with a bound on the number of steps. Without
references a part is lighter than the whole, so the bound is never reached; and the answer is put
together from the answers of the parts in one way, whichever keyword is looked at first and whether
the check stops at the first that fails.

* `Schema.answered`: a well-formed schema of this kind always has an answer, `Schema.judge`.
* `Schema.judge_map`: the answer is yes if all keywords are satisfied.
-/

namespace YamlServer
namespace Schema

open Outcome

def keywords : List String :=
  ["type", "properties", "additionalProperties", "items", "required", "enum", "const", "minimum",
    "maximum", "exclusiveMinimum", "exclusiveMaximum", "minLength", "maxLength", "minItems",
    "maxItems", "minProperties", "maxProperties", "uniqueItems", "anyOf", "allOf", "oneOf", "not",
    "if", "then", "else"]

def schemasOf : Value → List Value
  | .list schemas => schemas
  | v => [v]

def valuesOf : Value → List Value
  | .map entries => entries.map (·.2)
  | _ => []

def applied (d : Draft) (name : String) (v : Value) : List Value :=
  if name = "properties" then valuesOf v
  else if name ∈ ["items", "allOf", "anyOf", "oneOf"] then schemasOf v
  else if name ∈ ["additionalProperties", "not"] then [v]
  else if name ∈ ["if", "then", "else"] ∧ d ≠ .four ∧ d ≠ .six then [v]
  else []

/-- A schema of the keywords dealt with here in all its parts, and of `extra` ones at its top. -/
inductive Built (d : Draft) : List String → Value → Prop where
  | bool {extra : List String} (b : Bool) : Built d extra (.bool b)
  | map {extra : List String} (members : List (Value × Value))
      (named : ∀ m ∈ members, ∃ k, m.1 = .str k ∧ k ∈ extra ++ keywords)
      (parts : ∀ m ∈ members, ∀ sub ∈ applied d m.1.plainText m.2, Built d [] sub) :
      Built d extra (.map members)

def combined (d : Draft) (answer : Value → Value → Bool) (members : List (Value × Value))
    (name : String) (v instance_ : Value) : Bool :=
  match name with
  | "not" => !answer v instance_
  | "if" =>
    d == .four || d == .six ||
      match Value.get? members (if answer v instance_ then "then" else "else") with
      | some sub => answer sub instance_
      | none => true
  | "anyOf" =>
    match v with
    | .list schemas => schemas.any (answer · instance_)
    | _ => true
  | "oneOf" =>
    match v with
    | .list schemas => (schemas.filter (answer · instance_)).length == 1
    | _ => true
  | _ => true

def holds (d : Draft) (answer : Value → Value → Bool) (members : List (Value × Value))
    (name : String) (v instance_ : Value) : Bool :=
  match simpleKeyword? d members name v instance_ with
  | some result => result.toOption.getD false
  | none =>
    match tasks? members name v instance_ with
    | some tasks => tasks.all fun t => answer t.1 t.2
    | none => combined d answer members name v instance_

def descend (root : Value) (fuel : Nat) (d : Draft) (all : Bool) (sub instance_ : Value) :
    Except Fault Bool :=
  match sub with
  | .bool b => .ok b
  | _ => do
    let inner ← Draft.ofSchema d sub
    check root fuel all d inner sub instance_

/-- The check of a schema for itself, as a condition or a negated one is checked. -/
def alone (root : Value) (fuel : Nat) (d : Draft) (sub instance_ : Value) : Except Fault Bool :=
  match sub with
  | .bool b => .ok b
  | _ => do
    let inner ← Draft.ofSchema d sub
    check root fuel false inner inner sub instance_

def combination (root : Value) (fuel : Nat) (all : Bool) (d : Draft)
    (members : List (Value × Value)) (name : String) (v instance_ : Value) : Except Fault Bool :=
  match name, v with
  | "$ref", _ => do
    let target ← lookup root v
    descend root fuel d all target instance_
  | "not", _ => do return !(← alone root fuel d v instance_)
  | "if", _ =>
    if d == .four || d == .six then .ok true
    else do
      let branch := if ← alone root fuel d v instance_ then "then" else "else"
      match Value.get? members branch with
      | some sub => descend root fuel d all sub instance_
      | none => return true
  | "anyOf", .list schemas => do
    return (← firstValid (fun s => descend root fuel d true s instance_) schemas).isSome
  | "oneOf", .list schemas => do
    match ← firstValid (fun s => descend root fuel d true s instance_) schemas with
    | none => return false
    | some rest => return !(← rest.mapM (alone root fuel d · instance_)).any id
  | _, _ => .ok true

def keyword (root : Value) (fuel : Nat) (all : Bool) (d : Draft)
    (members : List (Value × Value)) (name : String) (v instance_ : Value) : Except Fault Bool :=
  match simpleKeyword? d members name v instance_, tasks? members name v instance_ with
  | some answer, _ => answer
  | none, some tasks => conjunction all (fun t => descend root fuel d all t.1 t.2) tasks
  | none, none => combination root fuel all d members name v instance_

theorem check_map (root : Value) (fuel : Nat) (all : Bool) (outer d : Draft)
    (members : List (Value × Value)) (instance_ : Value) :
    check root (fuel + 1) all outer d (.map members) instance_ =
      conjunction all (fun m => keyword root fuel all d members m.1.plainText m.2 instance_)
        (applicable outer members) := by
  rfl

/-! ## Lists of schemas -/

theorem conjunction_eq (all : Bool) {check : Task → Except Fault Bool} {f : Task → Bool}
    {tasks : List Task} (h : ∀ t ∈ tasks, check t = .ok (f t)) :
    conjunction all check tasks = .ok (tasks.all f) := by
  induction tasks with
  | nil => rfl
  | cons t rest ih =>
    have hrest := ih fun t' ht' => h t' (List.mem_cons_of_mem _ ht')
    rw [conjunction, h t List.mem_cons_self, hrest, List.all_cons]
    cases f t <;> cases all <;> rfl

/-- The schemas after the first that is satisfied. -/
theorem firstValid_eq {check : Value → Except Fault Bool} {f : Value → Bool} {schemas : List Value}
    (h : ∀ s ∈ schemas, check s = .ok (f s)) :
    firstValid check schemas = .ok none ∧ schemas.filter f = [] ∨
      ∃ s rest, firstValid check schemas = .ok (some rest) ∧ rest ⊆ schemas ∧
        schemas.filter f = s :: rest.filter f := by
  induction schemas with
  | nil => exact Or.inl ⟨rfl, rfl⟩
  | cons s rest ih =>
    have hrest := ih fun s' hs' => h s' (List.mem_cons_of_mem _ hs')
    rw [firstValid, h s List.mem_cons_self]
    cases hs : f s with
    | true =>
      refine Or.inr ⟨s, rest, rfl, List.subset_cons_self s rest, ?_⟩
      rw [List.filter_cons_of_pos hs]
    | false =>
      rw [List.filter_cons_of_neg (by simp [hs])]
      rcases hrest with ⟨hnone, hfilter⟩ | ⟨s', rest', hsome, hsub, hfilter⟩
      · exact Or.inl ⟨hnone, hfilter⟩
      · have hsub' := List.Subset.trans hsub (List.subset_cons_self s rest)
        exact Or.inr ⟨s', rest', hsome, hsub', hfilter⟩

/-! ## Parts of a schema -/

theorem weight_le_weightList {v : Value} {xs : List Value} (h : v ∈ xs) :
    weight v ≤ weightList xs := by
  induction xs with
  | nil => cases h
  | cons x xs ih =>
    rw [weightList]
    rcases List.mem_cons.1 h with rfl | h
    · exact Nat.le_add_right _ _
    · exact Nat.le_trans (ih h) (Nat.le_add_left _ _)

theorem weight_le_weightEntries {e : Value × Value} {es : List (Value × Value)} (h : e ∈ es) :
    weight e.2 ≤ weightEntries es := by
  induction es with
  | nil => cases h
  | cons x xs ih =>
    rw [weightEntries]
    rcases List.mem_cons.1 h with rfl | h
    · exact Nat.le_add_right _ _
    · exact Nat.le_trans (ih h) (Nat.le_add_left _ _)

theorem weight_schemasOf {v sub : Value} (h : sub ∈ schemasOf v) : weight sub ≤ weight v := by
  cases v with
  | list schemas => exact Nat.le_trans (weight_le_weightList h) (Nat.le_add_left _ _)
  | _ =>
    rcases List.mem_singleton.1 h with rfl
    exact Nat.le_refl _

theorem weight_valuesOf {v sub : Value} (h : sub ∈ valuesOf v) : weight sub ≤ weight v := by
  cases v with
  | map entries =>
    rcases List.mem_map.1 h with ⟨e, he, rfl⟩
    exact Nat.le_trans (weight_le_weightEntries he) (Nat.le_add_left _ _)
  | _ => cases h

/-- What a keyword applies weighs no more than its value. -/
theorem weight_applied {d : Draft} {name : String} {v sub : Value} (h : sub ∈ applied d name v) :
    weight sub ≤ weight v := by
  unfold applied at h
  split_ifs at h
  · exact weight_valuesOf h
  · exact weight_schemasOf h
  · exact (List.mem_singleton.1 h) ▸ Nat.le_refl _
  · exact (List.mem_singleton.1 h) ▸ Nat.le_refl _
  · cases h

/-! ## The form of a schema -/

namespace Draft

def fits (d : Draft) (form : Option Form) (v : Value) : Bool :=
  match form with
  | none => true
  | some (.leaf isFit) => isFit v
  | some .schema => isWellFormed d v
  | some .schemas => isSchemaList d v
  | some .schemaOrSchemas => isWellFormed d v || isSchemaList d v
  | some .schemaOrBool => isTruth v || isWellFormed d v
  | some .schemaMap => isSchemaMap d v
  | some .dependencies => isDependencyMap d v

variable {d : Draft}

@[simp]
theorem membersFit_iff {members : List (Value × Value)} :
    membersFit d members = true ↔
      ∀ m ∈ members, fits d (form? d m.1.plainText) m.2 = true := by
  induction members with
  | nil => simp [membersFit]
  | cons m rest ih =>
    rcases m with ⟨k, v⟩
    rw [membersFit, Bool.and_eq_true, ih, List.forall_mem_cons]
    exact Iff.rfl

@[simp]
theorem allWellFormed_iff {xs : List Value} :
    allWellFormed d xs = true ↔ ∀ x ∈ xs, isWellFormed d x = true := by
  induction xs with
  | nil => simp [allWellFormed]
  | cons x xs ih => rw [allWellFormed, Bool.and_eq_true, ih, List.forall_mem_cons]

@[simp]
theorem entriesWellFormed_iff {es : List (Value × Value)} :
    entriesWellFormed d es = true ↔ ∀ e ∈ es, isWellFormed d e.2 = true := by
  induction es with
  | nil => simp [entriesWellFormed]
  | cons e es ih =>
    rcases e with ⟨k, v⟩
    rw [entriesWellFormed, Bool.and_eq_true, ih, List.forall_mem_cons]

theorem isWellFormed_of_isSchemaMap {v sub : Value} (h : isSchemaMap d v = true)
    (hsub : sub ∈ valuesOf v) : isWellFormed d sub = true := by
  cases v with
  | map entries =>
    rcases List.mem_map.1 hsub with ⟨e, he, rfl⟩
    exact entriesWellFormed_iff.1 h e he
  | _ => cases hsub

theorem isWellFormed_of_isSchemaList {v sub : Value} (h : isSchemaList d v = true)
    (hsub : sub ∈ schemasOf v) : isWellFormed d sub = true := by
  cases v with
  | list schemas =>
    cases schemas with
    | nil => cases hsub
    | cons x xs =>
      rw [isSchemaList, Bool.and_eq_true, allWellFormed_iff] at h
      rcases List.mem_cons.1 hsub with rfl | hsub
      · exact h.1
      · exact h.2 sub hsub
  | _ => cases h

/-- A schema is no list, so that as a value of its own it is the only one. -/
theorem isWellFormed_of_mem_schemasOf {v sub : Value} (h : isWellFormed d v = true)
    (hsub : sub ∈ schemasOf v) : isWellFormed d sub = true := by
  cases v with
  | list schemas => cases h
  | _ => exact (List.mem_singleton.1 hsub) ▸ h

/-- What a keyword applies is a truth value or a schema of the version. -/
theorem isWellFormed_applied {name : String} {v sub : Value}
    (h : fits d (form? d name) v = true) (hsub : sub ∈ applied d name v) :
    isTruth sub = true ∨ isWellFormed d sub = true := by
  unfold applied at hsub
  split_ifs at hsub with hproperties hlists hsingles hbranches
  · subst hproperties
    exact Or.inr (isWellFormed_of_isSchemaMap h hsub)
  · simp only [List.mem_cons, List.not_mem_nil, or_false] at hlists
    rcases hlists with rfl | rfl | rfl | rfl
    · -- Only the newest version has no list of schemas here.
      have hform : isWellFormed d v = true ∨ isSchemaList d v = true := by
        have hitems : form? d "items" =
            some (if d == .twenty then .schema else .schemaOrSchemas) := rfl
        rw [hitems] at h
        split at h
        · exact Or.inl h
        · exact (Bool.or_eq_true _ _).mp h
      rcases hform with hform | hform
      · exact Or.inr (isWellFormed_of_mem_schemasOf hform hsub)
      · exact Or.inr (isWellFormed_of_isSchemaList hform hsub)
    · exact Or.inr (isWellFormed_of_isSchemaList h hsub)
    · exact Or.inr (isWellFormed_of_isSchemaList h hsub)
    · exact Or.inr (isWellFormed_of_isSchemaList h hsub)
  · rcases List.mem_singleton.1 hsub with rfl
    simp only [List.mem_cons, List.not_mem_nil, or_false] at hsingles
    rcases hsingles with rfl | rfl
    · have hadditional : form? d "additionalProperties" =
          some (if d == .four then .schemaOrBool else .schema) := rfl
      rw [hadditional] at h
      split at h
      · exact (Bool.or_eq_true _ _).mp h
      · exact Or.inr h
    · exact Or.inr h
  · rcases List.mem_singleton.1 hsub with rfl
    rcases hbranches with ⟨hname, hfour, hsix⟩
    have hform : form? d name = some .schema := by
      simp only [List.mem_cons, List.not_mem_nil, or_false] at hname
      rcases hname with rfl | rfl | rfl <;> cases d <;> first | rfl | contradiction
    rw [hform] at h
    exact Or.inr h
  · cases hsub

end Draft

/-! ## Keywords -/

theorem isOfType_isOk {d : Draft} {t v : Value} (h : Draft.isTypeName t = true) :
    ∃ b, isOfType d t v = .ok b := by
  cases t with
  | str s =>
    have hname : s ∈ Draft.typeNames := by simpa [Draft.isTypeName] using h
    simp only [Draft.typeNames, List.mem_cons, List.not_mem_nil, or_false] at hname
    rcases hname with rfl | rfl | rfl | rfl | rfl | rfl | rfl <;> exact ⟨_, rfl⟩
  | _ => cases h

theorem isOfSomeType_isOk {d : Draft} {v : Value} {types : List Value}
    (h : ∀ t ∈ types, Draft.isTypeName t = true) : ∃ b, isOfSomeType d v types = .ok b := by
  induction types with
  | nil => exact ⟨false, rfl⟩
  | cons t rest ih =>
    rcases isOfType_isOk (v := v) (d := d) (h t List.mem_cons_self) with ⟨b, hb⟩
    rcases ih fun t' ht' => h t' (List.mem_cons_of_mem _ ht') with ⟨b', hb'⟩
    rw [isOfSomeType, hb, hb']
    cases b with
    | true => exact ⟨true, rfl⟩
    | false => exact ⟨b', rfl⟩

theorem isTypeName_of_isType {v t : Value} (h : Draft.isType v = true) (ht : t ∈ schemasOf v) :
    Draft.isTypeName t = true := by
  cases v with
  | list types =>
    simp only [Draft.isType, Bool.and_eq_true, List.all_eq_true] at h
    exact h.1.2 t ht
  | str s => exact (List.mem_singleton.1 ht) ▸ h
  | _ => cases h

/-- Of the keywords that look at no other schema only a type can be unknown, and none that a version
accepts is. -/
theorem simpleKeyword?_isOk {d : Draft} {members : List (Value × Value)} {name : String}
    {v instance_ : Value} {result : Except Fault Bool}
    (h : Draft.fits d (Draft.form? d name) v = true)
    (hresult : simpleKeyword? d members name v instance_ = some result) :
    ∃ b, result = .ok b := by
  unfold simpleKeyword? at hresult
  split at hresult
  · cases hresult
    refine isOfSomeType_isOk fun t ht => isTypeName_of_isType h ?_
    cases v <;> exact ht
  -- Everything else is decided, or is no such keyword.
  all_goals try split at hresult
  all_goals cases hresult
  all_goals exact ⟨_, rfl⟩

/-- What a keyword wants to be satisfied are schemas that it applies. -/
theorem mem_applied_of_tasks? {d : Draft} {members : List (Value × Value)} {name : String}
    {v instance_ : Value} {tasks : List Task}
    (htasks : tasks? members name v instance_ = some tasks) {t : Task} (ht : t ∈ tasks) :
    t.1 ∈ applied d name v := by
  unfold tasks? at htasks
  split at htasks
  · split at htasks
    · rename_i properties instances
      cases htasks
      rcases List.mem_filterMap.1 ht with ⟨⟨name, sub⟩, hsub, hfound⟩
      rcases Option.map_eq_some_iff.1 hfound with ⟨m, -, rfl⟩
      exact List.mem_map.2 ⟨(name, sub), hsub, rfl⟩
    · cases htasks
      cases ht
  · split at htasks
    · cases htasks
      rcases List.mem_map.1 ht with ⟨m, -, rfl⟩
      exact List.mem_singleton.2 rfl
    · cases htasks
      cases ht
  · split at htasks
    · split at htasks
      · cases htasks
        exact (List.of_mem_zip ht).1
      · rename_i hlist
        cases htasks
        rcases List.mem_map.1 ht with ⟨i, -, rfl⟩
        cases v with
        | list schemas => exact absurd rfl (hlist schemas)
        | _ => exact List.mem_singleton.2 rfl
    · cases htasks
      cases ht
  · split at htasks
    · cases htasks
      rcases List.mem_map.1 ht with ⟨s, hs, rfl⟩
      exact hs
    · cases htasks
      cases ht
  · cases htasks

/-- A schema is decided, whether all keywords are looked at or not. -/
structure Decided (root : Value) (fuel : Nat) (d : Draft) (answer : Value → Value → Bool)
    (sub : Value) : Prop where
  descend : ∀ all instance_, descend root fuel d all sub instance_ = .ok (answer sub instance_)
  alone : ∀ instance_, alone root fuel d sub instance_ = .ok (answer sub instance_)

section

variable {root : Value} {fuel : Nat} {d : Draft} {answer : Value → Value → Bool}
variable {members : List (Value × Value)} {name : String} {v : Value}

theorem anyOf_eq {schemas : List Value} (instance_ : Value)
    (h : ∀ s ∈ schemas, Decided root fuel d answer s) :
    ∃ r, firstValid (fun s => descend root fuel d true s instance_) schemas = .ok r ∧
      r.isSome = schemas.any (answer · instance_) := by
  rcases firstValid_eq (fun s hs => (h s hs).descend true instance_) with
    ⟨hnone, hfilter⟩ | ⟨s, rest, hsome, -, hfilter⟩
  · refine ⟨none, hnone, ?_⟩
    have hall : ∀ s ∈ schemas, answer s instance_ = false := by
      simpa [List.filter_eq_nil_iff] using hfilter
    simpa using hall
  · refine ⟨some rest, hsome, ?_⟩
    have hs : s ∈ schemas.filter (answer · instance_) := hfilter ▸ List.mem_cons_self
    rcases List.mem_filter.1 hs with ⟨hmem, hanswer⟩
    exact (List.any_eq_true.2 ⟨s, hmem, hanswer⟩).symm

/-- Exactly one schema is satisfied if one is and none after it. -/
theorem oneOf_eq {schemas rest : List Value} {s : Value} {f : Value → Bool}
    (h : schemas.filter f = s :: rest.filter f) :
    ((schemas.filter f).length == 1) = !rest.any f := by
  rw [h, List.length_cons]
  cases hany : rest.any f with
  | true =>
    rcases List.any_eq_true.1 hany with ⟨s', hs', hf⟩
    have hpos : 0 < (rest.filter f).length := List.length_pos_of_mem (List.mem_filter.2 ⟨hs', hf⟩)
    simpa using List.ne_nil_of_length_pos hpos
  | false =>
    have hnone : rest.filter f = [] := List.filter_eq_nil_iff.2 (by simpa using hany)
    rw [hnone]
    rfl

/-- The branches of a condition are applied where the condition is. -/
theorem mem_applied_branch {sub : Value} (hfour : d ≠ .four) (hsix : d ≠ .six)
    (hname : name ∈ ["if", "then", "else"]) : sub ∈ applied d name sub := by
  simp only [List.mem_cons, List.not_mem_nil, or_false] at hname
  rcases hname with rfl | rfl | rfl <;> simp [applied, hfour, hsix]

theorem combination_eq (all : Bool) (instance_ : Value) (hname : name ≠ "$ref")
    (hm : (.str name, v) ∈ members)
    (h : ∀ m ∈ members, ∀ sub ∈ applied d m.1.plainText m.2, Decided root fuel d answer sub) :
    combination root fuel all d members name v instance_ =
      .ok (combined d answer members name v instance_) := by
  have hparts : ∀ sub ∈ applied d name v, Decided root fuel d answer sub := h _ hm
  unfold combination
  split
  · exact absurd rfl hname
  · have hsub := hparts v (by simp [applied])
    rw [hsub.alone]
    rfl
  · split
    · rename_i hold
      simp [combined, hold]
    · rename_i hnew
      have hversion : d ≠ .four ∧ d ≠ .six := by simpa using hnew
      have hcondition := hparts v (mem_applied_branch hversion.1 hversion.2 (by simp))
      have hchosen : (if answer v instance_ then "then" else "else") ∈ ["if", "then", "else"] := by
        split <;> simp
      rw [hcondition.alone]
      simp only [Bind.bind, Except.bind, combined, Bool.eq_false_iff.2 hnew, Bool.false_or]
      cases hbranch : Value.get? members (if answer v instance_ then "then" else "else") with
      | none => rfl
      | some sub =>
        have hpart := h _ (Value.mem_of_get? hbranch) sub
          (mem_applied_branch hversion.1 hversion.2 hchosen)
        exact hpart.descend all instance_
  · rename_i schemas
    have hschemas : ∀ s ∈ schemas, Decided root fuel d answer s := hparts
    rcases anyOf_eq instance_ hschemas with ⟨r, hr, hsome⟩
    rw [hr]
    exact congrArg Except.ok hsome
  · rename_i schemas
    have hschemas : ∀ s ∈ schemas, Decided root fuel d answer s := hparts
    rcases firstValid_eq (fun s hs => (hschemas s hs).descend true instance_) with
      ⟨hnone, hfilter⟩ | ⟨s, rest, hsome, hsub, hfilter⟩
    · rw [hnone]
      change Except.ok false = .ok ((schemas.filter (answer · instance_)).length == 1)
      rw [hfilter]
      rfl
    · have hrest := mapM_eq_map fun s hs => (hschemas s (hsub hs)).alone instance_
      rw [hsome]
      change (do return !(← rest.mapM (alone root fuel d · instance_)).any id) =
        Except.ok ((schemas.filter (answer · instance_)).length == 1)
      rw [hrest, oneOf_eq hfilter]
      change Except.ok (!(rest.map (answer · instance_)).any id) = _
      rw [List.any_map]
      rfl
  · rename_i href hnot hif hany hone
    have hcombined : combined d answer members name v instance_ = true := by
      unfold combined
      split
      · exact absurd rfl hnot
      · exact absurd rfl hif
      · cases v with
        | list schemas => exact absurd rfl (hany schemas rfl)
        | _ => rfl
      · cases v with
        | list schemas => exact absurd rfl (hone schemas rfl)
        | _ => rfl
      · rfl
    rw [hcombined]

theorem keyword_eq (all : Bool) (instance_ : Value) (hname : name ≠ "$ref")
    (hm : (.str name, v) ∈ members) (hfits : Draft.fits d (Draft.form? d name) v = true)
    (h : ∀ m ∈ members, ∀ sub ∈ applied d m.1.plainText m.2, Decided root fuel d answer sub) :
    keyword root fuel all d members name v instance_ =
      .ok (holds d answer members name v instance_) := by
  unfold keyword holds
  cases hsimple : simpleKeyword? d members name v instance_ with
  | some result =>
    rcases simpleKeyword?_isOk hfits hsimple with ⟨b, rfl⟩
    rfl
  | none =>
    cases htasks : tasks? members name v instance_ with
    | some tasks =>
      refine conjunction_eq all fun t ht => ?_
      have hsub : t.1 ∈ applied d name v := mem_applied_of_tasks? htasks ht
      exact (h _ hm t.1 hsub).descend all t.2
    | none => exact combination_eq all instance_ hname hm h

end

/-! ## Schemas -/

section

variable {d : Draft} {extra : List String} {members : List (Value × Value)}

/-- Without references all keywords count in every version. -/
theorem applicable_eq (outer : Draft) (h : ∀ m ∈ members, m.1 ≠ .str "$ref") :
    applicable outer members = members := by
  unfold applicable
  rw [Value.get?_eq_none_iff.2 h]
  split <;> rfl

theorem ne_of_named {name : String} (hextra : name ∉ extra ++ keywords)
    (h : ∀ m ∈ members, ∃ k, m.1 = .str k ∧ k ∈ extra ++ keywords) :
    ∀ m ∈ members, m.1 ≠ .str name := by
  intro m hm heq
  rcases h m hm with ⟨k, hk, hmem⟩
  cases hk.symm.trans heq
  exact hextra hmem

/-- A schema is satisfied if all its keywords are, given the answers of what they apply. -/
theorem check_eq_all {answer : Value → Value → Bool} (root : Value) (fuel : Nat) (all : Bool)
    (outer : Draft) (instance_ : Value) (hextra : "$ref" ∉ extra ++ keywords)
    (hnamed : ∀ m ∈ members, ∃ k, m.1 = .str k ∧ k ∈ extra ++ keywords)
    (hfit : Draft.membersFit d members = true)
    (h : ∀ m ∈ members, ∀ sub ∈ applied d m.1.plainText m.2, Decided root fuel d answer sub) :
    check root (fuel + 1) all outer d (.map members) instance_ =
      .ok (members.all fun m => holds d answer members m.1.plainText m.2 instance_) := by
  rw [check_map, applicable_eq outer (ne_of_named hextra hnamed)]
  refine conjunction_eq all fun m hm => ?_
  rcases m with ⟨k, v⟩
  rcases hnamed (k, v) hm with ⟨name, hk, hname⟩
  dsimp only at hk
  subst hk
  have hfits := Draft.membersFit_iff.1 hfit _ hm
  exact keyword_eq all instance_ (fun heq => hextra (heq ▸ hname)) hm hfits h

def judge (d : Draft) (schema instance_ : Value) : Bool :=
  (check .null (weight schema) false d d schema instance_).toOption.getD false

/-- Schemas without a version of their own have that of the schema around them. -/
theorem ofSchema_of_built {schema : Value} (h : Built d [] schema) :
    Draft.ofSchema d schema = .ok d := by
  cases h with
  | bool b => rfl
  | map members named parts =>
    have hnone : Value.get? members "$schema" = none :=
      Value.get?_eq_none_iff.2 (ne_of_named (by decide) named)
    rw [Draft.ofSchema, hnone]

/-- With enough steps a schema has its answer, which depends neither on their number nor on how it
is asked. -/
def Answered (d : Draft) (schema : Value) : Prop :=
  ∀ root fuel, weight schema ≤ fuel → ∀ all outer instance_,
    check root fuel all outer d schema instance_ = .ok (judge d schema instance_)

theorem Answered.decided {sub root : Value} {fuel : Nat} (h : Answered d sub)
    (hbuilt : Built d [] sub) (hfuel : weight sub ≤ fuel) : Decided root fuel d (judge d) sub := by
  have hown := ofSchema_of_built hbuilt
  cases hbuilt with
  | bool b => exact ⟨fun _ _ => rfl, fun _ => rfl⟩
  | map members named parts =>
    refine ⟨fun all instance_ => ?_, fun instance_ => ?_⟩
    · rw [descend, hown]
      · exact h root fuel hfuel all d instance_
      · exact nofun
    · rw [alone, hown]
      · exact h root fuel hfuel false d instance_
      · exact nofun

/-- The members of a schema, what they apply being answered. What a keyword applies is lighter than
the schema, so that a step less is enough for it. -/
theorem check_members (hextra : "$ref" ∉ extra ++ keywords)
    (hbuilt : Built d extra (.map members)) (hfit : Draft.membersFit d members = true)
    (hanswered : ∀ m ∈ members, ∀ sub ∈ applied d m.1.plainText m.2, Answered d sub) {fuel : Nat}
    (hfuel : weightEntries members ≤ fuel) (root : Value) (all : Bool) (outer : Draft)
    (instance_ : Value) :
    check root (fuel + 1) all outer d (.map members) instance_ =
      .ok (members.all fun m => holds d (judge d) members m.1.plainText m.2 instance_) := by
  cases hbuilt with
  | map _ named parts =>
    refine check_eq_all root fuel all outer instance_ hextra named hfit ?_
    intro m hm sub hsub
    have hweight := Nat.le_trans (weight_applied hsub) (weight_le_weightEntries hm)
    exact (hanswered m hm sub hsub).decided (parts m hm sub hsub) (Nat.le_trans hweight hfuel)

theorem judge_members (hextra : "$ref" ∉ extra ++ keywords)
    (hbuilt : Built d extra (.map members)) (hfit : Draft.membersFit d members = true)
    (hanswered : ∀ m ∈ members, ∀ sub ∈ applied d m.1.plainText m.2, Answered d sub)
    (instance_ : Value) :
    judge d (.map members) instance_ =
      members.all fun m => holds d (judge d) members m.1.plainText m.2 instance_ := by
  rw [judge, weight, Nat.add_comm,
    check_members hextra hbuilt hfit hanswered (Nat.le_refl _) .null false d instance_]
  rfl

theorem membersFit_of_isWellFormed (h : Draft.isWellFormed d (.map members) = true) :
    Draft.membersFit d members = true := by
  rw [Draft.isWellFormed, Bool.and_eq_true] at h
  exact h.1

theorem answered {schema : Value} (hextra : "$ref" ∉ extra ++ keywords)
    (hbuilt : Built d extra schema)
    (hform : Draft.isTruth schema = true ∨ Draft.isWellFormed d schema = true) :
    Answered d schema := by
  induction hbuilt with
  | bool b =>
    intro root fuel hfuel all outer instance_
    cases fuel with
    | zero => cases hfuel
    | succ fuel => rfl
  | map members named parts ih =>
    rcases hform with hform | hform
    · cases hform
    have hfit := membersFit_of_isWellFormed hform
    have hanswered : ∀ m ∈ members, ∀ sub ∈ applied d m.1.plainText m.2, Answered d sub := by
      intro m hm sub hsub
      have hsubform := Draft.isWellFormed_applied (Draft.membersFit_iff.1 hfit m hm) hsub
      exact ih m hm sub hsub (by decide) hsubform
    have hbuilt := Built.map members named parts
    intro root fuel hfuel all outer instance_
    rw [weight] at hfuel
    cases fuel with
    | zero => omega
    | succ fuel =>
      rw [judge_members hextra hbuilt hfit hanswered]
      exact check_members hextra hbuilt hfit hanswered (by omega) root all outer instance_

/-- A schema is satisfied if all its keywords are. -/
theorem judge_map (hextra : "$ref" ∉ extra ++ keywords) (hbuilt : Built d extra (.map members))
    (hform : Draft.isWellFormed d (.map members) = true) (instance_ : Value) :
    judge d (.map members) instance_ =
      members.all fun m => holds d (judge d) members m.1.plainText m.2 instance_ := by
  have hfit := membersFit_of_isWellFormed hform
  refine judge_members hextra hbuilt hfit ?_ instance_
  cases hbuilt with
  | map _ named parts =>
    intro m hm sub hsub
    have hsubform := Draft.isWellFormed_applied (Draft.membersFit_iff.1 hfit m hm) hsub
    exact answered (by decide) (parts m hm sub hsub) hsubform

/-- A schema that is satisfied has everything satisfied that its keywords apply. -/
theorem judge_of_task {name : String} {v instance_ : Value} {tasks : List Task} {t : Task}
    (hextra : "$ref" ∉ extra ++ keywords) (hbuilt : Built d extra (.map members))
    (hform : Draft.isWellFormed d (.map members) = true)
    (h : judge d (.map members) instance_ = true) (hm : (.str name, v) ∈ members)
    (hsimple : simpleKeyword? d members name v instance_ = none)
    (htasks : tasks? members name v instance_ = some tasks) (ht : t ∈ tasks) :
    judge d t.1 t.2 = true := by
  rw [judge_map hextra hbuilt hform, List.all_eq_true] at h
  have hkeyword : holds d (judge d) members name v instance_ = true := h _ hm
  rw [holds, hsimple] at hkeyword
  dsimp only at hkeyword
  rw [htasks] at hkeyword
  exact List.all_eq_true.1 hkeyword t ht

/-- Asking whether a value satisfies a schema always gives the answer. -/
theorem isValid_eq_judge {schema : Value} (hextra : "$ref" ∉ extra ++ keywords)
    (hbuilt : Built d extra schema) (hform : Draft.isWellFormed d schema = true)
    (hown : Draft.ofSchema d schema = .ok d) (root instance_ : Value) :
    isValid root d schema instance_ = .ok (judge d schema instance_) := by
  have hfuel : weight schema ≤
      25 * (weight root + weight schema + 1) * (weight instance_ + 1) + 1 := by
    have hle : 25 * (weight root + weight schema + 1) ≤
        25 * (weight root + weight schema + 1) * (weight instance_ + 1) :=
      Nat.le_mul_of_pos_right _ (Nat.succ_pos _)
    omega
  unfold isValid
  rw [hown]
  exact answered hextra hbuilt (Or.inr hform) root _ hfuel false d instance_

end

end Schema
end YamlServer
