import Mathlib.Data.List.DropRight
import Mathlib.Data.List.Induction
import YamlServer.Text.Lines

/-!
# The line around an offset

The lines of a text are kept as the offsets at which they start. Seen from an offset, its line is
what stands before it, back to the nearest line feed, and what follows up to the next one.

* `Text.lineBefore`, `Text.lineAfter`: the two parts of the line around an offset.
* `Lines.content_eq`: the content of its line has both parts, without the carriage returns at the
  end.
* `Lines.allBlank_content`: the content is blank if the line is.
-/

namespace YamlServer
namespace Text

def lineBefore (cs : List Char) (offset : Nat) : List Char :=
  (cs.take offset).rtakeWhile (· != '\n')

def lineAfter (cs : List Char) (offset : Nat) : List Char :=
  (cs.drop offset).takeWhile (· != '\n')

def lineAround (cs : List Char) (offset : Nat) : List Char :=
  lineBefore cs offset ++ lineAfter cs offset

namespace Lines

/-! ## Starts of lines -/

@[simp]
theorem startsAfter_append (offset : Nat) (xs ys : List Char) :
    startsAfter offset (xs ++ ys) =
      startsAfter offset xs ++ startsAfter (offset + xs.length) ys := by
  induction xs generalizing offset with
  | nil => rfl
  | cons c xs ih =>
    have hlength : offset + 1 + xs.length = offset + (c :: xs).length := by
      rw [List.length_cons]
      omega
    simp only [List.cons_append, startsAfter, ih, hlength]
    split
    · rfl
    · rfl

theorem mem_startsAfter_iff {offset n : Nat} {xs : List Char} :
    n ∈ startsAfter offset xs ↔ ∃ k, n = offset + k + 1 ∧ xs[k]? = some '\n' := by
  induction xs generalizing offset with
  | nil => simp [startsAfter]
  | cons c xs ih =>
    -- The character is the line feed, or one further on is.
    rw [← Nat.or_exists_add_one]
    by_cases hc : c = '\n'
    · simp [startsAfter, hc, ih, Nat.add_assoc, Nat.add_comm 1]
    · simp [startsAfter, hc, ih, Nat.add_assoc, Nat.add_comm 1]

theorem bounds_of_mem_startsAfter {offset n : Nat} {xs : List Char}
    (h : n ∈ startsAfter offset xs) : offset < n ∧ n ≤ offset + xs.length := by
  rcases mem_startsAfter_iff.1 h with ⟨k, rfl, hk⟩
  have hlt := (List.getElem?_eq_some_iff.1 hk).1
  omega

/-- The last line that starts in a text starts where the text after its last line feed does. -/
theorem getLast?_startsAfter (xs : List Char) :
    (0 :: startsAfter 0 xs).getLast? = some (xs.length - (xs.rtakeWhile (· != '\n')).length) := by
  induction xs using List.reverseRecOn with
  | nil => rfl
  | append_singleton xs c ih =>
    rw [startsAfter_append, Nat.zero_add, List.rtakeWhile_concat, List.length_append,
      List.length_singleton]
    have hle : (xs.rtakeWhile (· != '\n')).length ≤ xs.length :=
      (List.rtakeWhile_suffix _ xs).length_le
    by_cases hc : c = '\n'
    · simp [startsAfter, hc, List.getLast?_cons]
    · have hstarts : startsAfter xs.length [c] = [] := by simp [startsAfter, hc]
      rw [hstarts, List.append_nil, ih]
      simp [hc]

/-- The first line that starts behind an offset, if there is one, starts after the next line
feed. -/
theorem head?_startsAfter (offset : Nat) (xs : List Char) :
    (startsAfter offset xs).head? =
      if (xs.takeWhile (· != '\n')).length = xs.length then none
      else some (offset + (xs.takeWhile (· != '\n')).length + 1) := by
  induction xs generalizing offset with
  | nil => rfl
  | cons c xs ih =>
    by_cases hc : c = '\n'
    · simp [startsAfter, hc]
    · simp only [startsAfter, beq_iff_eq, hc, if_false, ih, List.takeWhile_cons, bne_iff_ne,
        ne_eq, not_false_eq_true, if_true, List.length_cons, Nat.add_right_cancel_iff]
      congr 2
      omega

section Cut

/-! ## A text cut in two -/

variable (xs ys : List Char)

theorem starts_cut :
    (ofChars (xs ++ ys)).starts = (0 :: startsAfter 0 xs) ++ startsAfter xs.length ys := by
  simp [ofChars]

theorem lineAt_cut : (ofChars (xs ++ ys)).lineAt xs.length = (startsAfter 0 xs).length := by
  have hfirst : (0 :: startsAfter 0 xs).filter (· ≤ xs.length) = 0 :: startsAfter 0 xs := by
    refine List.filter_eq_self.2 ?_
    intro n hn
    rcases List.mem_cons.1 hn with rfl | hn
    · exact decide_eq_true (Nat.zero_le _)
    · have := bounds_of_mem_startsAfter hn
      exact decide_eq_true (by omega)
  -- Lines that start in the second half start behind the cut, not at it.
  have hlater : (startsAfter xs.length ys).filter (· ≤ xs.length) = [] := by
    refine List.filter_eq_nil_iff.2 ?_
    intro n hn
    have := bounds_of_mem_startsAfter hn
    simpa using this.1
  rw [lineAt, starts_cut, List.filter_append, hfirst, hlater, List.append_nil, List.length_cons,
    Nat.add_sub_cancel]

theorem start_cut : (ofChars (xs ++ ys)).start ((ofChars (xs ++ ys)).lineAt xs.length) =
    xs.length - (xs.rtakeWhile (· != '\n')).length := by
  have hlast := getLast?_startsAfter xs
  rw [List.getLast?_eq_getElem?, List.length_cons, Nat.add_sub_cancel] at hlast
  have hlt : (startsAfter 0 xs).length < (0 :: startsAfter 0 xs).length := by simp
  rw [start, lineAt_cut, starts_cut, List.getD_eq_getElem?_getD, List.getElem?_append_left hlt,
    hlast, Option.getD_some]

theorem stop_cut : (ofChars (xs ++ ys)).stop ((ofChars (xs ++ ys)).lineAt xs.length) =
    xs.length + (ys.takeWhile (· != '\n')).length := by
  have hnext : (ofChars (xs ++ ys)).starts[(ofChars (xs ++ ys)).lineAt xs.length + 1]? =
      (startsAfter xs.length ys).head? := by
    rw [lineAt_cut, starts_cut, List.getElem?_append_right (by simp), List.length_cons,
      Nat.sub_self, List.head?_eq_getElem?]
  rw [stop, hnext, head?_startsAfter]
  -- The last line stops with the text, any other one before its line feed.
  split_ifs with hall
  · simp [ofChars, hall]
  · simp

end Cut

/-! ## The line of an offset -/

variable {cs : List Char} {offset : Nat}

theorem lineBefore_length_le (h : offset ≤ cs.length) : (lineBefore cs offset).length ≤ offset := by
  have hle := (List.rtakeWhile_suffix (· != '\n') (cs.take offset)).length_le
  rw [List.length_take, Nat.min_eq_left h] at hle
  exact hle

theorem lineAt_lt_count (h : offset ≤ cs.length) :
    (ofChars cs).lineAt offset < (ofChars cs).count := by
  have hcut := lineAt_cut (cs.take offset) (cs.drop offset)
  have hstarts := starts_cut (cs.take offset) (cs.drop offset)
  rw [List.take_append_drop] at hcut hstarts
  rw [List.length_take, Nat.min_eq_left h] at hcut
  rw [hcut, count, hstarts, List.length_append, List.length_cons]
  omega

theorem start_eq (h : offset ≤ cs.length) :
    (ofChars cs).start ((ofChars cs).lineAt offset) = offset - (lineBefore cs offset).length := by
  have hcut := start_cut (cs.take offset) (cs.drop offset)
  rwa [List.take_append_drop, List.length_take, Nat.min_eq_left h] at hcut

theorem stop_eq (h : offset ≤ cs.length) :
    (ofChars cs).stop ((ofChars cs).lineAt offset) = offset + (lineAfter cs offset).length := by
  have hcut := stop_cut (cs.take offset) (cs.drop offset)
  rwa [List.take_append_drop, List.length_take, Nat.min_eq_left h] at hcut

theorem clamp_le (cs : List Char) (offset : Int) : (ofChars cs).clamp offset ≤ cs.length :=
  Nat.min_le_right _ _

theorem clamp_mono (b : Lines) {o o' : Int} (h : o ≤ o') : b.clamp o ≤ b.clamp o' := by
  have hle : o.toNat ≤ o'.toNat := by omega
  exact Nat.le_min.2 ⟨Nat.le_trans (Nat.min_le_left _ _) hle, Nat.min_le_right _ _⟩

theorem lineAt_mono (b : Lines) {o o' : Nat} (h : o ≤ o') : b.lineAt o ≤ b.lineAt o' := by
  -- A line that starts up to the first offset starts up to the second one.
  have hcount : b.starts.countP (· ≤ o) ≤ b.starts.countP (· ≤ o') := by
    refine List.countP_mono_left ?_
    intro n _ hn
    exact decide_eq_true (Nat.le_trans (of_decide_eq_true hn) h)
  rw [List.countP_eq_length_filter, List.countP_eq_length_filter] at hcount
  exact Nat.sub_le_sub_right hcount 1

/-- Outside of the text nothing is before or behind an offset that is not so at its ends. -/
theorem cut_clamp (cs : List Char) (offset : Int) :
    cs.take ((ofChars cs).clamp offset) = cs.take offset.toNat ∧
      cs.drop ((ofChars cs).clamp offset) = cs.drop offset.toNat := by
  rcases Nat.le_total offset.toNat cs.length with hle | hle
  · have hclamp : (ofChars cs).clamp offset = offset.toNat := Nat.min_eq_left hle
    exact ⟨by rw [hclamp], by rw [hclamp]⟩
  · have hclamp : (ofChars cs).clamp offset = cs.length := Nat.min_eq_right hle
    rw [hclamp, List.take_length, List.drop_length, List.take_of_length_le hle,
      List.drop_of_length_le hle]
    exact ⟨rfl, rfl⟩

@[simp]
theorem lineBefore_clamp (cs : List Char) (offset : Int) :
    lineBefore cs ((ofChars cs).clamp offset) = lineBefore cs offset.toNat := by
  rw [lineBefore, lineBefore, (cut_clamp cs offset).1]

@[simp]
theorem lineAround_clamp (cs : List Char) (offset : Int) :
    lineAround cs ((ofChars cs).clamp offset) = lineAround cs offset.toNat := by
  rw [lineAround, lineAround, lineBefore_clamp, lineAfter, lineAfter, (cut_clamp cs offset).2]

/-- The column of an offset is the length of what stands before it on its line. -/
@[simp]
theorem column_eq (cs : List Char) (offset : Int) :
    ((ofChars cs).position offset).2 = (lineBefore cs offset.toNat).length := by
  have hle := lineBefore_length_le (clamp_le cs offset)
  rw [← lineBefore_clamp, position, start_eq (clamp_le cs offset)]
  omega

/-- The content of a line is the line without the carriage returns that end it. -/
theorem contentAt_eq (h : offset ≤ cs.length) :
    (ofChars cs).contentAt ((ofChars cs).lineAt offset) =
      (lineAround cs offset).rdropWhile (· == '\r') := by
  have hbefore : (cs.take offset).drop (offset - (lineBefore cs offset).length) =
      lineBefore cs offset := by
    have hsuffix := List.suffix_iff_eq_drop.1 (List.rtakeWhile_suffix (· != '\n') (cs.take offset))
    rw [List.length_take, Nat.min_eq_left h] at hsuffix
    exact hsuffix.symm
  have hafter : (cs.drop offset).take (lineAfter cs offset).length = lineAfter cs offset :=
    (List.prefix_iff_eq_take.1 (List.takeWhile_prefix _)).symm
  have hsegment : (cs.take (offset + (lineAfter cs offset).length)).drop
      (offset - (lineBefore cs offset).length) = lineAround cs offset := by
    rw [List.take_add, hafter, List.drop_append_of_le_length, hbefore, lineAround]
    rw [List.length_take, Nat.min_eq_left h]
    exact Nat.sub_le _ _
  rw [contentAt, start_eq h, stop_eq h]
  exact congrArg (List.rdropWhile (· == '\r')) hsegment

theorem content_eq (cs : List Char) (offset : Int) :
    (ofChars cs).content (Int.ofNat ((ofChars cs).position offset).1) =
      (lineAround cs offset.toNat).rdropWhile (· == '\r') := by
  have hlt : (ofChars cs).lineAt ((ofChars cs).clamp offset) < (ofChars cs).count :=
    lineAt_lt_count (clamp_le cs offset)
  rw [← lineAround_clamp, ← contentAt_eq (clamp_le cs offset), content, position, if_neg]
  · rfl
  · simp only [Bool.or_eq_true, decide_eq_true_eq, not_or]
    simp only [Int.ofNat_eq_natCast]
    omega

/-- What stands before a character that ends no line stays when the end of the line is dropped. -/
theorem length_lt_rdropWhile {p : Char → Bool} {c : Char} (hc : p c = false) (xs ys : List Char) :
    xs.length < ((xs ++ c :: ys).rdropWhile p).length := by
  induction ys using List.reverseRecOn with
  | nil =>
    rw [List.rdropWhile_concat_neg p xs c (by simp [hc])]
    simp
  | append_singleton ys y ih =>
    rw [← List.cons_append, ← List.append_assoc]
    by_cases hy : p y = true
    · rw [List.rdropWhile_concat_pos p _ y hy]
      exact ih
    · rw [List.rdropWhile_concat_neg p _ y hy]
      simp only [List.length_append, List.length_cons]
      omega

/-- The position of a character leads back to it, unless it ends its line. -/
theorem offset?_position {c : Char} (hc : cs[offset]? = some c) (hfeed : c ≠ '\n')
    (hreturn : c ≠ '\r') :
    (ofChars cs).offset? (Int.ofNat ((ofChars cs).position (Int.ofNat offset)).1)
      (Int.ofNat ((ofChars cs).position (Int.ofNat offset)).2) = some (Int.ofNat offset) := by
  have hlt : offset < cs.length := (List.getElem?_eq_some_iff.1 hc).1
  have hle : offset ≤ cs.length := Nat.le_of_lt hlt
  have hbefore := lineBefore_length_le hle
  have hclamp : (ofChars cs).clamp (Int.ofNat offset) = offset := Nat.min_eq_left hle
  have hline : ((ofChars cs).position (Int.ofNat offset)).1 = (ofChars cs).lineAt offset := by
    rw [position, hclamp]
  have hafter : lineAfter cs offset = c :: lineAfter cs (offset + 1) := by
    have hdrop : cs.drop offset = c :: cs.drop (offset + 1) := by
      rw [List.drop_eq_getElem_cons hlt, (List.getElem?_eq_some_iff.1 hc).2]
    rw [lineAfter, hdrop, List.takeWhile_cons_of_pos (by simpa using hfeed), lineAfter]
  -- The content of the line goes on behind the character.
  have hcontent : (lineBefore cs offset).length <
      ((ofChars cs).content (Int.ofNat ((ofChars cs).position (Int.ofNat offset)).1)).length := by
    have hoffset : (Int.ofNat offset).toNat = offset := rfl
    rw [content_eq, hoffset, lineAround, hafter]
    exact length_lt_rdropWhile (by simpa using hreturn) _ _
  have hcount := lineAt_lt_count hle
  rw [hline] at hcontent ⊢
  rw [offset?, column_eq, if_neg (by simp only [Int.ofNat_eq_natCast]; omega)]
  simp only [Int.ofNat_eq_natCast, Int.toNat_natCast] at hcontent ⊢
  rw [if_neg (by omega), if_neg (by omega), Int.toNat_natCast, start_eq hle]
  congr 1
  omega

/-! ## Blanks -/

def isIndent (c : Char) : Bool :=
  c == ' ' || c == '\t'

theorem eq_return_of_mem {c : Char} {line : List Char} (h : c ∈ line.rtakeWhile (· == '\r')) :
    c = '\r' := by
  have hc := List.mem_rtakeWhile_imp (p := (· == '\r')) h
  exact beq_iff_eq.1 hc

/-- Carriage returns at the end of a line do not change how far its indentation goes. -/
theorem takeWhile_rdropWhile (line : List Char) :
    (line.rdropWhile (· == '\r')).takeWhile isIndent = line.takeWhile isIndent := by
  have hreturns : (line.rtakeWhile (· == '\r')).takeWhile isIndent = [] := by
    rw [List.takeWhile_eq_nil_iff]
    intro hpos
    rw [eq_return_of_mem (List.get_mem _ ⟨0, hpos⟩)]
    decide
  -- A carriage return is no blank of an indentation, so that none of those at the end is counted.
  conv_rhs => rw [← List.rdropWhile_append_rtakeWhile (p := (· == '\r')) (l := line)]
  rw [List.takeWhile_append, hreturns, List.append_nil]
  split
  · rename_i hall
    exact (List.takeWhile_prefix isIndent).eq_of_length hall
  · rfl

theorem length_le_takeWhile_iff (xs ys : List Char) :
    xs.length ≤ ((xs ++ ys).takeWhile isIndent).length ↔ xs.all isIndent = true := by
  rw [List.takeWhile_append]
  split
  · rename_i hall
    have heq := (List.takeWhile_prefix isIndent).eq_of_length hall
    rw [List.takeWhile_eq_self_iff] at heq
    simpa using heq
  · rename_i hall
    have hle := (List.takeWhile_prefix (l := xs) isIndent).length_le
    constructor
    · intro h
      exact absurd (Nat.le_antisymm hle h) hall
    · intro h
      rw [List.all_eq_true] at h
      rw [List.takeWhile_eq_self_iff.2 h]

/-- The indentation of a line up to a column is the column if nothing but blanks stands before
it. -/
theorem indentation_eq_iff (line : List Char) (column : Nat) :
    indentation line (Int.ofNat column) = Int.ofNat column ↔
      column ≤ (line.takeWhile isIndent).length := by
  have hle := (List.takeWhile_prefix (l := line) isIndent).length_le
  have hwidth : (line.takeWhile fun c => c == ' ' || c == '\t') = line.takeWhile isIndent := rfl
  rw [indentation, hwidth]
  simp only [Int.ofNat_eq_natCast]
  split
  · omega
  · omega

/-- The indentation of a line reaches the cursor if only spaces and tabs stand before it. -/
theorem indentation_eq_column_iff (cs : List Char) (offset : Int) :
    indentation ((ofChars cs).content (Int.ofNat ((ofChars cs).position offset).1))
        (Int.ofNat ((ofChars cs).position offset).2) =
        Int.ofNat ((ofChars cs).position offset).2 ↔
      (lineBefore cs offset.toNat).all isIndent = true := by
  rw [indentation_eq_iff, content_eq, column_eq, takeWhile_rdropWhile, lineAround,
    length_le_takeWhile_iff]

/-- The content of a line is blank if the line is. -/
theorem allBlank_content (cs : List Char) (offset : Int) :
    allBlank ((ofChars cs).content (Int.ofNat ((ofChars cs).position offset).1)) =
      allBlank (lineAround cs offset.toNat) := by
  rw [content_eq]
  generalize lineAround cs offset.toNat = line
  have hreturns : allBlank (line.rtakeWhile (· == '\r')) = true := by
    rw [allBlank, List.all_eq_true]
    intro c hc
    rw [eq_return_of_mem hc]
    decide
  -- Here they are blanks, and there may be any number of them.
  conv_rhs => rw [← List.rdropWhile_append_rtakeWhile (p := (· == '\r')) (l := line)]
  rw [allBlank, allBlank, List.all_append]
  rw [allBlank] at hreturns
  rw [hreturns, Bool.and_true]

end Lines
end Text
end YamlServer
