import YamlServer.Proofs.Outcome
import YamlServer.Tree.OfNode

/-!
# Scalars without a value

A scalar under one of the plain tags has the value that its text writes. A numeral that cannot be
read keeps its text instead, but some texts are neither read nor kept: a word that is no truth
value, an integer or a floating-point number of no characters, and a number of so many groups of
base sixty that a place value leaves the range of floating-point numbers.

* `Scalar.refuses_bool`, `Scalar.refuses_int`, `Scalar.refuses_float`: reading such a text fails.
* `Tree.scalarValue_error_iff`: these and no others have no value in a tree.
-/

namespace YamlServer

namespace Yaml
namespace Scalar

open Outcome

/-! ## The texts -/

def truthWords : List String :=
  ["yes", "true", "on", "no", "false", "off"]

def sixtyGroups (content : String) : List (List Char) :=
  Tag.splitColons (Tag.unsigned (Text.lower (String.ofList (ungrouped content))).toList)

def sixtyPlaces : Nat := 174

/-- A text that has no value under a tag and is not kept as text either. -/
inductive Unvalued : (tag content : String) → Prop where
  | word {content : String} (h : Text.lower content ∉ truthWords) : Unvalued Tag.bool content
  | integer {content : String} (h : ungrouped content ∈ [[], ['-'], ['+']]) :
      Unvalued Tag.int content
  | number {content : String} (h : ungrouped content = []) : Unvalued Tag.float content
  | groups {content : String}
      (hread : ∀ part ∈ sixtyGroups content, ∃ x, Numeral.float? part = some x)
      (hcount : sixtyPlaces < (sixtyGroups content).length) : Unvalued Tag.float content

/-! ## Truth values and integers -/

/-- The computation fails, and not because of a numeral that cannot be read. -/
def Refuses {α : Type} (x : Except Fault α) : Prop :=
  ∃ f, x = .error f ∧ f ≠ .malformed

theorem not_refuses_ok {α : Type} (a : α) : ¬ Refuses (.ok a) := by
  rintro ⟨f, hf, -⟩
  cases hf

theorem not_refuses_read {α : Type} (x : Option α) : ¬ Refuses (read x) := by
  rintro ⟨f, hf, hne⟩
  cases x with
  | none =>
    cases hf
    exact hne rfl
  | some a => cases hf

@[simp]
theorem refuses_map {α β : Type} {x : Except Fault α} {g : α → β} :
    Refuses (x.map g) ↔ Refuses x := by
  simp only [Refuses, map_eq_error]

theorem refuses_bind {α β : Type} {x : Except Fault α} {k : α → Except Fault β} :
    Refuses (x >>= k) ↔ Refuses x ∨ ∃ a, x = .ok a ∧ Refuses (k a) := by
  cases x with
  | error f => simp [Refuses, bind, Except.bind]
  | ok a => simp [Refuses, bind, Except.bind]

/-- A list of numerals is read, or one of them cannot be. -/
theorem not_refuses_mapM_read {α β : Type} (g : α → Option β) (xs : List α) :
    ¬ Refuses (xs.mapM fun x => read (g x)) := by
  rintro ⟨f, hf, hne⟩
  rcases mapM_eq_error hf with ⟨x, -, hx⟩
  exact not_refuses_read (g x) ⟨f, hx, hne⟩

@[simp]
theorem refuses_bool (content : String) :
    Refuses (bool content) ↔ Text.lower content ∉ truthWords := by
  -- Yes, no, or neither.
  unfold bool
  dsimp only
  split
  · rename_i hyes
    refine iff_of_false (not_refuses_ok _) fun hword => hword ?_
    exact List.mem_append_left ["no", "false", "off"] (List.contains_iff_mem.1 hyes)
  · rename_i hyes
    split
    · rename_i hno
      refine iff_of_false (not_refuses_ok _) fun hword => hword ?_
      exact List.mem_append_right ["yes", "true", "on"] (List.contains_iff_mem.1 hno)
    · rename_i hno
      refine iff_of_true ⟨_, rfl, by decide⟩ fun hword => ?_
      rcases List.mem_append.1 (show Text.lower content ∈ ["yes", "true", "on"] ++ _ from hword)
        with h | h
      · exact hyes (List.contains_iff_mem.2 h)
      · exact hno (List.contains_iff_mem.2 h)

@[simp]
theorem refuses_unsignedInt (cs : List Char) : Refuses (unsignedInt cs) ↔ cs = [] := by
  unfold unsignedInt
  split
  · exact iff_of_true ⟨_, rfl, by decide⟩ rfl
  · exact iff_of_false (not_refuses_ok _) (List.cons_ne_nil _ _)
  · exact iff_of_false (not_refuses_read _) (List.cons_ne_nil _ _)
  · exact iff_of_false (not_refuses_read _) (List.cons_ne_nil _ _)
  · exact iff_of_false (not_refuses_read _) (List.cons_ne_nil _ _)
  -- A decimal numeral, or the groups of one of base sixty.
  · rename_i hnil _ _ _ _
    refine iff_of_false ?_ hnil
    split
    · rw [refuses_bind]
      rintro (hparts | ⟨parts, -, hsum⟩)
      · exact not_refuses_mapM_read _ _ hparts
      · exact not_refuses_ok _ hsum
    · exact not_refuses_read _

@[simp]
theorem refuses_int (content : String) :
    Refuses (int content) ↔ ungrouped content ∈ [[], ['-'], ['+']] := by
  unfold int
  split
  · rename_i h
    rw [h]
    exact iff_of_true ⟨_, rfl, by decide⟩ (by decide)
  · rename_i rest h
    rw [refuses_map, refuses_unsignedInt, h]
    simp
  · rename_i rest h
    rw [refuses_unsignedInt, h]
    simp
  · rename_i hnil hminus hplus
    rw [refuses_unsignedInt]
    refine iff_of_false hnil ?_
    intro hmem
    rcases List.mem_cons.1 hmem with h | hmem
    · exact hnil h
    rcases List.mem_cons.1 hmem with h | hmem
    · exact hminus [] h
    · exact hplus [] (List.mem_singleton.1 hmem)

/-! ## Floating-point numbers -/

theorem ofInt_place_ne_infinite : ∀ j < sixtyPlaces, ∀ negative,
    Binary64.ofInt (Int.ofNat (Nat.pow 60 j)) ≠ .infinite negative := by
  -- Finitely many places: each is looked at.
  decide +kernel

theorem ofInt_place_eq_infinite :
    Binary64.ofInt (Int.ofNat (Nat.pow 60 sixtyPlaces)) = .infinite false := by
  decide +kernel

/-- Adding up groups fails once there are more of them than places. -/
theorem refuses_floatSixties {j : Nat} (hj : j ≤ sixtyPlaces) (acc : Binary64)
    (parts : List Binary64) :
    Refuses (floatSixties (Nat.pow 60 j) acc parts) ↔ sixtyPlaces < j + parts.length := by
  -- On the groups: the `j`-th place value is finite as long as `j` is below the number of places.
  induction parts generalizing j acc with
  | nil => exact iff_of_false (not_refuses_ok _) (Nat.not_lt.2 hj)
  | cons part rest ih =>
    rw [floatSixties]
    rcases Nat.lt_or_eq_of_le hj with hlt | rfl
    · have hstep := ih (j := j + 1) hlt
      rw [Nat.add_assoc, Nat.add_comm 1] at hstep
      split
      · rename_i negative hinfinite
        exact absurd hinfinite (ofInt_place_ne_infinite j hlt negative)
      · exact hstep _
    · rw [ofInt_place_eq_infinite]
      refine iff_of_true ⟨_, rfl, by decide⟩ ?_
      exact Nat.lt_add_of_pos_right (Nat.succ_pos _)

theorem splitColons_of_not_mem {cs : List Char} (h : ':' ∉ cs) : Tag.splitColons cs = [cs] := by
  induction cs with
  | nil => rfl
  | cons c rest ih =>
    have hrest := ih fun hmem => h (List.mem_cons_of_mem c hmem)
    have hc : ¬ (c == ':') = true := by
      intro heq
      exact h (beq_iff_eq.1 heq ▸ List.mem_cons_self)
    rw [Tag.splitColons, hrest]
    dsimp only
    rw [if_neg hc]

@[simp]
theorem refuses_unsignedFloat (cs : List Char) :
    Refuses (unsignedFloat cs) ↔
      (∀ part ∈ Tag.splitColons cs, ∃ x, Numeral.float? part = some x) ∧
        sixtyPlaces < (Tag.splitColons cs).length := by
  -- Without a colon there is one group only.
  have hsingle : ':' ∉ cs → ¬ sixtyPlaces < (Tag.splitColons cs).length := by
    intro hcolon
    rw [splitColons_of_not_mem hcolon, List.length_singleton]
    decide
  -- Infinity, not a number, groups of base sixty, or a decimal numeral.
  unfold unsignedFloat
  split
  · rename_i hinf
    refine iff_of_false (not_refuses_ok _) fun h => hsingle ?_ h.2
    rw [beq_iff_eq.1 hinf]
    decide
  · split
    · rename_i hnan
      refine iff_of_false (not_refuses_ok _) fun h => hsingle ?_ h.2
      rw [beq_iff_eq.1 hnan]
      decide
    · split
      · rw [refuses_bind]
        constructor
        · rintro (hparts | ⟨parts, hparts, hsum⟩)
          · exact absurd hparts (not_refuses_mapM_read _ _)
          · rcases mapM_eq_ok hparts with ⟨hlength, hread⟩
            have hcount := (refuses_floatSixties (Nat.zero_le _) _ _).1 hsum
            rw [List.length_reverse, hlength, Nat.zero_add] at hcount
            refine ⟨?_, hcount⟩
            intro part hpart
            rcases hread part hpart with ⟨y, -, hy⟩
            cases hfloat : Numeral.float? part with
            | none =>
              rw [hfloat] at hy
              cases hy
            | some x => exact ⟨x, rfl⟩
        · rintro ⟨hread, hcount⟩
          cases hparts : (Tag.splitColons cs).mapM fun part => read (Numeral.float? part) with
          | error f =>
            rcases mapM_eq_error hparts with ⟨part, hpart, hfail⟩
            rcases hread part hpart with ⟨x, hx⟩
            rw [hx] at hfail
            cases hfail
          | ok parts =>
            refine Or.inr ⟨parts, rfl, ?_⟩
            refine (refuses_floatSixties (Nat.zero_le _) _ _).2 ?_
            rwa [List.length_reverse, (mapM_eq_ok hparts).1, Nat.zero_add]
      · rename_i hcolon
        refine iff_of_false (not_refuses_read _) fun h => hsingle ?_ h.2
        exact fun hmem => hcolon (List.contains_iff_mem.2 hmem)

theorem lower_ofList_toList_eq_nil (cs : List Char) :
    (Text.lower (String.ofList cs)).toList = [] ↔ cs = [] := by
  rw [Text.lower, String.toList_ofList, String.toList_ofList]
  cases cs with
  | nil => exact iff_of_true rfl rfl
  | cons c rest =>
    refine iff_of_false ?_ (List.cons_ne_nil c rest)
    intro h
    rw [Text.lowerFrom] at h
    have hsmall := (List.append_eq_nil_iff.1 h).1
    split at hsmall
    · cases hsmall
    · split at hsmall <;> cases hsmall

@[simp]
theorem refuses_float (content : String) :
    Refuses (float content) ↔ ungrouped content = [] ∨
      (∀ part ∈ sixtyGroups content, ∃ x, Numeral.float? part = some x) ∧
        sixtyPlaces < (sixtyGroups content).length := by
  have hnil := lower_ofList_toList_eq_nil (ungrouped content)
  unfold float sixtyGroups
  split
  · rename_i h
    exact iff_of_true ⟨_, rfl, by decide⟩ (Or.inl (hnil.1 h))
  · rename_i rest h
    rw [refuses_map, refuses_unsignedFloat, ← hnil, h]
    simp [Tag.unsigned]
  · rename_i rest h
    rw [refuses_unsignedFloat, ← hnil, h]
    simp [Tag.unsigned]
  -- Without a sign nothing is cut off.
  · rename_i hempty hminus hplus
    have hunsigned : Tag.unsigned (Text.lower (String.ofList (ungrouped content))).toList =
        (Text.lower (String.ofList (ungrouped content))).toList := by
      unfold Tag.unsigned
      split
      · rename_i rest h
        exact absurd h (hminus rest)
      · rename_i rest h
        exact absurd h (hplus rest)
      · rfl
    rw [refuses_unsignedFloat, hunsigned, ← hnil]
    exact (or_iff_right hempty).symm

/-! ## The plain tags -/

@[simp]
theorem plain?_bool (content : String) :
    plain? Tag.bool content = some ((bool content).map Value.bool) := by
  rw [plain?, if_neg (by decide), if_pos (beq_self_eq_true _)]

@[simp]
theorem plain?_int (content : String) :
    plain? Tag.int content = some ((int content).map Value.int) := by
  rw [plain?, if_neg (by decide), if_neg (by decide), if_pos (beq_self_eq_true _)]

@[simp]
theorem plain?_float (content : String) :
    plain? Tag.float content = some ((float content).map Value.float) := by
  rw [plain?, if_neg (by decide), if_neg (by decide), if_neg (by decide),
    if_pos (beq_self_eq_true _)]

/-- Under the other two tags every text has a value. -/
theorem plain?_cases {tag content : String} {x : Except Fault Value}
    (h : plain? tag content = some x) :
    (∃ v, x = .ok v) ∨ tag = Tag.bool ∧ x = (bool content).map Value.bool ∨
      tag = Tag.int ∧ x = (int content).map Value.int ∨
      tag = Tag.float ∧ x = (float content).map Value.float := by
  unfold plain? at h
  split at h
  · exact Or.inl ⟨_, (Option.some.inj h).symm⟩
  split at h
  · rename_i htag
    exact Or.inr (Or.inl ⟨beq_iff_eq.1 htag, (Option.some.inj h).symm⟩)
  split at h
  · rename_i htag
    exact Or.inr (Or.inr (Or.inl ⟨beq_iff_eq.1 htag, (Option.some.inj h).symm⟩))
  split at h
  · rename_i htag
    exact Or.inr (Or.inr (Or.inr ⟨beq_iff_eq.1 htag, (Option.some.inj h).symm⟩))
  split at h
  · exact Or.inl ⟨_, (Option.some.inj h).symm⟩
  · cases h

end Scalar
end Yaml

namespace Tree

open Yaml Scalar

/-- What the value of a scalar is, if it has one: what its text writes under its tag, or else the
text. -/
def Valued (tag content : String) (v : Value) : Prop :=
  plain? tag content = some (.ok v) ∨
    v = .str content ∧ ∀ v', plain? tag content ≠ some (.ok v')

/-- A scalar has its value or keeps its text. -/
theorem valued_of_scalarValue {tag content : String} {v : Value}
    (h : scalarValue tag content = .ok v) : Valued tag content v := by
  unfold scalarValue at h
  split at h
  · rename_i hplain
    cases h
    refine Or.inr ⟨rfl, ?_⟩
    intro v' hv'
    rw [hplain] at hv'
    cases hv'
  · rename_i v' hplain
    cases h
    exact Or.inl hplain
  · rename_i hplain
    cases h
    refine Or.inr ⟨rfl, ?_⟩
    intro v' hv'
    rw [hplain] at hv'
    cases hv'
  · cases h

theorem scalarValue_error_iff_refuses {tag content : String} :
    (∃ f, scalarValue tag content = .error f) ↔
      ∃ x, plain? tag content = some x ∧ Refuses x := by
  constructor
  · rintro ⟨f, hf⟩
    unfold scalarValue at hf
    split at hf
    · cases hf
    · cases hf
    · cases hf
    · rename_i f' hne hplain
      exact ⟨_, hplain, f', rfl, hne⟩
  · rintro ⟨x, hx, f, rfl, hne⟩
    refine ⟨f, ?_⟩
    unfold scalarValue
    rw [hx]
    cases f with
    | malformed => exact absurd rfl hne
    | notBoolean | emptyNumeral | tooLarge => rfl

/-- The scalars without a value are those whose texts have none under their tags. -/
theorem scalarValue_error_iff {tag content : String} :
    (∃ f, scalarValue tag content = .error f) ↔ Unvalued tag content := by
  rw [scalarValue_error_iff_refuses]
  constructor
  · rintro ⟨x, hx, hrefuses⟩
    rcases plain?_cases hx with ⟨v, hv⟩ | ⟨htag, hv⟩ | ⟨htag, hv⟩ | ⟨htag, hv⟩
    · exact absurd (hv ▸ hrefuses) (not_refuses_ok v)
    · rw [hv, refuses_map, refuses_bool] at hrefuses
      exact htag ▸ .word hrefuses
    · rw [hv, refuses_map, refuses_int] at hrefuses
      exact htag ▸ .integer hrefuses
    · rw [hv, refuses_map, refuses_float] at hrefuses
      rcases hrefuses with h | ⟨hread, hcount⟩
      · exact htag ▸ .number h
      · exact htag ▸ .groups hread hcount
  · intro h
    cases h with
    | word h => exact ⟨_, plain?_bool content, refuses_map.2 ((refuses_bool content).2 h)⟩
    | integer h => exact ⟨_, plain?_int content, refuses_map.2 ((refuses_int content).2 h)⟩
    | number h =>
      have hrefuses := (refuses_float content).2 (Or.inl h)
      exact ⟨_, plain?_float content, refuses_map.2 hrefuses⟩
    | groups hread hcount =>
      have hrefuses := (refuses_float content).2 (Or.inr ⟨hread, hcount⟩)
      exact ⟨_, plain?_float content, refuses_map.2 hrefuses⟩

end Tree
end YamlServer
