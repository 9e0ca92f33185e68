import YamlServer.Value

/-!
# Equality of names

Data is compared by `Value.same`, which identifies numbers of the same size. Every value equals
itself, and on names, the values that keys of documents have, it is plain equality.

* `Value.same_self`: every value equals itself.
* `Value.IsName`: a text, or null where a key has no text.
* `Value.same_iff_of_isName`, `Value.sameList_iff_of_isName`: equality of names and of paths of
  them.
* `Value.mem_of_get?`, `Value.get?_eq_none_iff`: what stands under a text.
-/

namespace YamlServer

@[simp]
theorem Binary64.comparePlaces_self (p : Int × Nat) : comparePlaces p p = .eq := by
  rcases p with ⟨a, d⟩
  cases d <;> simp [comparePlaces]

@[simp]
theorem Moment.same_self (m : Moment) : m.same m = true := by
  unfold Moment.same
  split <;> simp_all

namespace Value

/-! ## Every value equals itself -/

theorem sameNumber_self {v : Value} {p : Int × Nat} (h : v.place? = some p) :
    sameNumber v v = true := by
  unfold sameNumber
  split
  · rfl
  · simp [h, Binary64.comparePlaces_self]

mutual

@[simp]
theorem same_self : (v : Value) → same v v = true
  | .null => by rw [same]
  | .bool b => by
      simp only [same]
      exact sameNumber_self rfl
  | .int i => by
      simp only [same]
      exact sameNumber_self rfl
  | .float x => by
      simp only [same]
      cases x with
      | finite => exact sameNumber_self rfl
      | infinite => exact sameNumber_self rfl
      | nan => rfl
  | .str s => by simp [same]
  | .bytes data => by simp [same]
  | .moment m => by simp [same]
  | .list xs => by rw [same, sameList_self xs]
  | .tuple xs => by rw [same, sameList_self xs]
  | .map es => by simp [same, sameEntries_of_subset es es (List.Subset.refl es)]
  | .set xs => by simp [same, sameMembers_of_subset xs xs (List.Subset.refl xs)]

@[simp]
theorem sameList_self : (xs : List Value) → sameList xs xs = true
  | [] => by rw [sameList]
  | x :: xs => by rw [sameList, same_self x, sameList_self xs, Bool.and_self]

theorem sameEntries_of_subset : (es fs : List (Value × Value)) → es ⊆ fs → sameEntries es fs = true
  | [], _, _ => by rw [sameEntries]
  | (k, v) :: es, fs, h => by
      rcases List.cons_subset.1 h with ⟨hmem, hrest⟩
      rw [sameEntries, sameEntries_of_subset es fs hrest, Bool.and_true, List.any_eq_true]
      refine ⟨(k, v), hmem, ?_⟩
      rw [same_self k, same_self v, Bool.and_self]

theorem sameMembers_of_subset : (xs ys : List Value) → xs ⊆ ys → sameMembers xs ys = true
  | [], _, _ => by rw [sameMembers]
  | x :: xs, ys, h => by
      rcases List.cons_subset.1 h with ⟨hmem, hrest⟩
      rw [sameMembers, sameMembers_of_subset xs ys hrest, Bool.and_true, List.any_eq_true]
      exact ⟨x, hmem, same_self x⟩

end

/-! ## Names -/

/-- A text, or null. -/
def IsName (v : Value) : Prop :=
  v = .null ∨ ∃ s, v = .str s

theorem isName_str (s : String) : IsName (.str s) :=
  Or.inr ⟨s, rfl⟩

@[simp]
theorem same_str_left {s : String} {v : Value} : same (.str s) v = true ↔ v = .str s := by
  cases v with
  | str t =>
    simp only [same, beq_iff_eq, str.injEq]
    exact eq_comm
  | _ => simp [same, sameNumber, place?]

@[simp]
theorem same_str_right {s : String} {v : Value} : same v (.str s) = true ↔ v = .str s := by
  cases v with
  | str t => simp [same]
  | float x => cases x <;> simp [same, sameNumber, place?]
  | _ => simp [same, sameNumber, place?]

@[simp]
theorem same_null_left {v : Value} : same .null v = true ↔ v = .null := by
  cases v with
  | null => simp
  | _ => simp [same, sameNumber, place?]

theorem same_iff_of_isName {a b : Value} (ha : a.IsName) : same a b = true ↔ a = b := by
  rcases ha with rfl | ⟨s, rfl⟩
  · rw [same_null_left]
    exact eq_comm
  · rw [same_str_left]
    exact eq_comm

theorem sameList_iff_of_isName {as bs : List Value} (has : ∀ a ∈ as, a.IsName) :
    sameList as bs = true ↔ as = bs := by
  induction as generalizing bs with
  | nil => cases bs <;> simp [sameList]
  | cons a as ih =>
    cases bs with
    | nil => simp [sameList]
    | cons b bs =>
      have ha : a.IsName := has a List.mem_cons_self
      have hrest : ∀ a ∈ as, a.IsName := fun x hx => has x (List.mem_cons_of_mem _ hx)
      rw [sameList, Bool.and_eq_true, same_iff_of_isName ha, ih hrest, List.cons.injEq]

/-! ## Entries under a text -/

theorem mem_of_get? {es : List (Value × Value)} {key : String} {v : Value}
    (h : get? es key = some v) : (Value.str key, v) ∈ es := by
  unfold get? at h
  induction es with
  | nil => cases h
  | cons e es ih =>
    unfold lookup? at h
    split at h
    · rename_i hsame
      rw [same_str_right] at hsame
      cases h
      rw [← hsame]
      exact List.mem_cons_self
    · exact List.mem_cons_of_mem _ (ih h)

theorem get?_eq_none_iff {es : List (Value × Value)} {key : String} :
    get? es key = none ↔ ∀ e ∈ es, e.1 ≠ .str key := by
  unfold get?
  induction es with
  | nil => simp [lookup?]
  | cons e es ih =>
    rw [lookup?, List.forall_mem_cons, ← ih]
    split
    · rename_i hsame
      exact iff_of_false (Option.some_ne_none _) fun h => h.1 (same_str_right.1 hsame)
    · rename_i hsame
      exact (and_iff_right fun h => hsame (same_str_right.2 h)).symm

end Value
end YamlServer
