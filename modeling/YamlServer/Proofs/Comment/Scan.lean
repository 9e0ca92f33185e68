import YamlServer.Comment
import YamlServer.Proofs.Yaml.TokenOrder

/-!
# The comments of a text in order

Comments are found from left to right, at most one on a line, and each of them ends with its line.

* `Comment.Precedes`: a comment on an earlier line, at a smaller offset.
* `Comment.of_mem_scanFrom`: a comment has what the state of the scan has at its offset.
* `Comment.newline_not_mem_text`: the text of a comment holds no line break.
* `Comment.textSpans_ofChars`: the spans of a text's own tokens stand in order as they come.
-/

namespace YamlServer
namespace Comment

open Yaml

def Precedes (c c' : Comment) : Prop :=
  c.offset < c'.offset ∧ c.line < c'.line

/-- The first line on which a comment may still be found: the present one unless it has its
comment. -/
def openLine (line : Nat) (taken : Bool) : Nat :=
  if taken then line + 1 else line

theorem ahead_of_mem_scanFrom {spans : List (Nat × Nat)} {offset line : Nat} {before : Option Char}
    {content taken : Bool} {cs : List Char} {c : Comment}
    (hc : c ∈ scanFrom spans offset line before content taken cs) :
    offset ≤ c.offset ∧ openLine line taken ≤ c.line := by
  fun_induction scanFrom spans offset line before content taken cs with
  | case1 => cases hc
  | case2 offset line before content taken first rest hnewline ih =>
    rcases ih hc with ⟨hoffset, hline⟩
    have hopen : openLine line taken ≤ line + 1 := by
      cases taken <;> simp [openLine]
    exact ⟨Nat.le_of_succ_le hoffset, Nat.le_trans hopen hline⟩
  | case3 offset line before content taken first rest hnewline hopens ih =>
    have huntaken : taken = false := by
      simp only [Bool.and_eq_true, Bool.not_eq_true'] at hopens
      exact hopens.1.1.2
    subst huntaken
    rcases List.mem_cons.1 hc with rfl | hc
    · exact ⟨Nat.le_refl _, Nat.le_refl _⟩
    · rcases ih hc with ⟨hoffset, hline⟩
      exact ⟨Nat.le_of_succ_le hoffset, Nat.le_of_succ_le hline⟩
  | case4 offset line before content taken first rest hnewline hopens ih =>
    rcases ih hc with ⟨hoffset, hline⟩
    exact ⟨Nat.le_of_succ_le hoffset, hline⟩

theorem pairwise_scanFrom (spans : List (Nat × Nat)) (offset line : Nat) (before : Option Char)
    (content taken : Bool) (cs : List Char) :
    (scanFrom spans offset line before content taken cs).Pairwise Precedes := by
  fun_induction scanFrom spans offset line before content taken cs with
  | case1 => exact List.Pairwise.nil
  | case2 offset line before content taken first rest hnewline ih => exact ih
  | case3 offset line before content taken first rest hnewline hopens ih =>
    -- Behind a comment the rest of the line is passed over.
    refine List.pairwise_cons.2 ⟨?_, ih⟩
    intro c hc
    exact ahead_of_mem_scanFrom hc
  | case4 offset line before content taken first rest hnewline hopens ih => exact ih

/-- Comments are found in order, each on a line of its own. -/
theorem pairwise_scan (cs : List Char) (tokens : List Token) :
    (scan cs tokens).Pairwise Precedes :=
  pairwise_scanFrom _ _ _ _ _ _ _

theorem mem_of_mem_trimEnd {c : Char} {cs : List Char} (h : c ∈ Text.trimEnd cs) : c ∈ cs := by
  have hreverse : c ∈ cs.reverse.dropWhile Text.isBlank := List.mem_reverse.1 h
  exact List.mem_reverse.1 (List.dropWhile_subset _ hreverse)

/-- What holds of the state of a scan at every offset holds of each comment at its own, and the text
of a comment is the rest of its line. -/
theorem of_mem_scanFrom {motive : Nat → Nat → Bool → Prop} {spans : List (Nat × Nat)}
    {cs : List Char} {c : Comment}
    (feed : ∀ i line content, cs[i]? = some '\n' → motive i line content →
      motive (i + 1) (line + 1) false)
    (other : ∀ i line content a, cs[i]? = some a → a ≠ '\n' → motive i line content →
      motive (i + 1) line (content || !Text.isBlank a))
    (i line : Nat) (before : Option Char) (content taken : Bool) (hstate : motive i line content)
    (hc : c ∈ scanFrom spans i line before content taken (cs.drop i)) :
    motive c.offset c.line c.inline ∧
      c.text = String.ofList (Text.trimEnd ((cs.drop (c.offset + 1)).takeWhile (· != '\n'))) := by
  -- On what is left of the text.
  induction hrest : cs.drop i generalizing i line before content taken with
  | nil =>
    rw [hrest] at hc
    cases hc
  | cons a rest ih =>
    have ha : cs[i]? = some a := by
      rw [← List.head?_drop, hrest]
      rfl
    have hnext : cs.drop (i + 1) = rest := by
      rw [← List.tail_drop, hrest]
      rfl
    rw [hrest, scanFrom] at hc
    rw [← hnext] at hc
    by_cases hfeed : a = '\n'
    · rw [if_pos (beq_iff_eq.2 hfeed)] at hc
      exact ih _ _ _ _ _ (feed i line content (hfeed ▸ ha) hstate) hc hnext
    · have hgo := other i line content a ha hfeed hstate
      rw [if_neg (mt beq_iff_eq.1 hfeed)] at hc
      split at hc
      · rename_i hopens
        rcases List.mem_cons.1 hc with rfl | hc
        · exact ⟨hstate, rfl⟩
        · -- The sign of a comment is content itself.
          have hsign : a = '#' := by
            simp only [Bool.and_eq_true, beq_iff_eq] at hopens
            exact hopens.1.1.1
          have hcontent : (content || !Text.isBlank a) = true := by
            rw [hsign]
            cases content <;> decide
          rw [hcontent] at hgo
          exact ih _ _ _ _ _ hgo hc hnext
      · exact ih _ _ _ _ _ hgo hc hnext

theorem text_of_mem_scan {cs : List Char} {tokens : List Token} {c : Comment}
    (hc : c ∈ scan cs tokens) :
    c.text = String.ofList (Text.trimEnd ((cs.drop (c.offset + 1)).takeWhile (· != '\n'))) :=
  (of_mem_scanFrom (motive := fun _ _ _ => True) (fun _ _ _ _ h => h) (fun _ _ _ _ _ _ h => h)
    0 0 none false false trivial hc).2

theorem newline_not_mem_text {cs : List Char} {tokens : List Token} {c : Comment}
    (hc : c ∈ scan cs tokens) : '\n' ∉ c.text.toList := by
  intro hmem
  rw [text_of_mem_scan hc, String.toList_ofList] at hmem
  have hkept := List.all_eq_true.1 List.all_takeWhile _ (mem_of_mem_trimEnd hmem)
  simp at hkept

/-! ## Spans -/

def textSpan? (t : Token) : Option (Nat × Nat) :=
  if t.kind.isText && t.start.index < t.stop.index then some (t.start.index, t.stop.index) else none

/-- Spans of tokens that stand in order need no sorting. -/
theorem textSpans_of_inOrder {lo hi : Nat} {tokens : List Token}
    (h : InOrder Token.extent lo hi tokens) : textSpans tokens = tokens.filterMap textSpan? := by
  refine List.mergeSort_of_pairwise (List.pairwise_filterMap.2 (h.ordered.imp ?_))
  intro t t' hle span hspan span' hspan'
  simp only [Option.ite_none_right_eq_some, Bool.and_eq_true, decide_eq_true_eq] at hspan hspan'
  rcases hspan with ⟨⟨-, hlt⟩, hspan⟩
  rcases hspan' with ⟨-, hspan'⟩
  cases hspan
  cases hspan'
  have hbefore : t.start.index < t'.start.index := Nat.lt_of_lt_of_le hlt hle
  simp [hbefore]

theorem textSpans_ofChars (cs : List Char) :
    textSpans (TokenStream.ofChars cs).tokens =
      (TokenStream.ofChars cs).tokens.filterMap textSpan? :=
  textSpans_of_inOrder (TokenStream.inOrder_ofChars cs)

theorem scan_ofText (text : String) :
    scan text.toList (TokenStream.ofText text).tokens =
      scanFrom ((TokenStream.ofText text).tokens.filterMap textSpan?) 0 0 none false false
        text.toList := by
  rw [scan, TokenStream.ofText, textSpans_ofChars]

end Comment
end YamlServer
