import YamlServer.Proofs.Text.Lines

/-!
# Positions and offsets

The two conversions between offsets and positions undo each other. A position on a line leads to an
offset that has this position. An offset has a position that leads back to it, unless it stands
behind a carriage return of the run that ends its line: such a run does not belong to the content,
and all offsets behind its first character lead back to where it starts.

* `Lines.conversions_inverse`: the conversions undo each other, and positions keep the order of
  offsets.
-/

namespace YamlServer
namespace Text

/-- An offset lies past the first character of the run of carriage returns that ends its line. No
further one stands in front of the run, and a line feed or nothing behind it. -/
def PastReturn (cs : List Char) (offset : Nat) : Prop :=
  ∃ before after n, cs = before ++ List.replicate n '\r' ++ after ∧
    before.getLast? ≠ some '\r' ∧ (∀ c, after.head? = some c → c = '\n') ∧
    before.length < offset ∧ offset ≤ before.length + n

namespace Lines

variable {cs : List Char} {line offset : Nat}

/-! ## The offsets of a line -/

theorem startsAfter_sorted (offset : Nat) (cs : List Char) :
    (startsAfter offset cs).Pairwise (· < ·) := by
  induction cs generalizing offset with
  | nil => exact List.Pairwise.nil
  | cons c cs ih =>
    unfold startsAfter
    split
    · refine List.pairwise_cons.2 ⟨?_, ih (offset + 1)⟩
      intro n hn
      exact (bounds_of_mem_startsAfter hn).1
    · exact ih (offset + 1)

theorem starts_sorted (cs : List Char) : (ofChars cs).starts.Pairwise (· < ·) := by
  refine List.pairwise_cons.2 ⟨?_, startsAfter_sorted 0 cs⟩
  intro n hn
  exact (bounds_of_mem_startsAfter hn).1

/-- In an ascending row, the numbers up to a bound are those up to a place behind which the bound is
passed. -/
theorem length_filter_le {ns : List Nat} (hsorted : ns.Pairwise (· < ·)) {i n bound : Nat}
    (hn : ns[i]? = some n) (hle : n ≤ bound)
    (hnext : ∀ next, ns[i + 1]? = some next → bound < next) :
    (ns.filter (· ≤ bound)).length = i + 1 := by
  induction ns generalizing i with
  | nil => cases hn
  | cons m ns ih =>
    rcases List.pairwise_cons.1 hsorted with ⟨hfirst, hrest⟩
    cases i with
    | zero =>
      have hm : m = n := by simpa using hn
      have hnone : ns.filter (· ≤ bound) = [] := by
        cases ns with
        | nil => rfl
        | cons next rest =>
          have hbound : bound < next := hnext next rfl
          refine List.filter_eq_nil_iff.2 ?_
          intro k hk
          have hk' : next ≤ k := by
            rcases List.mem_cons.1 hk with rfl | hlater
            · exact Nat.le_refl _
            · exact Nat.le_of_lt ((List.pairwise_cons.1 hrest).1 k hlater)
          simp only [decide_eq_true_eq, Nat.not_le]
          omega
      rw [List.filter_cons_of_pos (by simpa [hm] using hle), hnone]
      rfl
    | succ i =>
      have hn' : ns[i]? = some n := by simpa using hn
      have hm : m < n := hfirst n (List.mem_of_getElem? hn')
      have hbelow : m ≤ bound := by omega
      rw [List.filter_cons_of_pos (by simpa using hbelow), List.length_cons,
        ih hrest hn' fun next h => hnext next (by simpa using h)]

theorem getElem?_starts (h : line < (ofChars cs).count) :
    (ofChars cs).starts[line]? = some ((ofChars cs).start line) := by
  have hlt : line < (ofChars cs).starts.length := h
  rw [start, List.getD_eq_getElem?_getD, List.getElem?_eq_getElem hlt, Option.getD_some]

theorem start_le_length (h : line < (ofChars cs).count) : (ofChars cs).start line ≤ cs.length := by
  have hmem := List.mem_of_getElem? (getElem?_starts h)
  rcases List.mem_cons.1 hmem with hzero | hlater
  · omega
  · have := (bounds_of_mem_startsAfter hlater).2
    omega

theorem start_lt_next {next : Nat} (h : line < (ofChars cs).count)
    (hnext : (ofChars cs).starts[line + 1]? = some next) : (ofChars cs).start line < next := by
  rcases List.getElem?_eq_some_iff.1 (getElem?_starts h) with ⟨hline, hstart⟩
  rcases List.getElem?_eq_some_iff.1 hnext with ⟨hlater, rfl⟩
  rw [← hstart]
  exact List.pairwise_iff_getElem.1 (starts_sorted cs) line (line + 1) hline hlater (by omega)

theorem start_le_stop (h : line < (ofChars cs).count) :
    (ofChars cs).start line ≤ (ofChars cs).stop line := by
  unfold stop
  split
  · rename_i next hnext
    have := start_lt_next h hnext
    omega
  · exact start_le_length h

theorem stop_le_length (cs : List Char) (line : Nat) : (ofChars cs).stop line ≤ cs.length := by
  unfold stop
  split
  · rename_i next hnext
    rcases List.mem_cons.1 (List.mem_of_getElem? hnext) with rfl | hlater
    · exact Nat.zero_le _
    · have := (bounds_of_mem_startsAfter hlater).2
      omega
  · exact Nat.le_refl _

/-- The offsets from the start of a line to its stop are on this line. -/
theorem lineAt_of_between (hline : line < (ofChars cs).count)
    (hstart : (ofChars cs).start line ≤ offset) (hstop : offset ≤ (ofChars cs).stop line) :
    (ofChars cs).lineAt offset = line := by
  have hnext : ∀ next, (ofChars cs).starts[line + 1]? = some next → offset < next := by
    intro next hnext
    have hlt := start_lt_next hline hnext
    simp only [stop, hnext] at hstop
    omega
  rw [lineAt, length_filter_le (starts_sorted cs) (getElem?_starts hline) hstart hnext,
    Nat.add_sub_cancel]

/-! ## From positions to offsets -/

theorem content_of_lt (h : line < (ofChars cs).count) :
    (ofChars cs).content (Int.ofNat line) = (ofChars cs).contentAt line := by
  rw [content, if_neg]
  · rfl
  · simp only [Bool.or_eq_true, decide_eq_true_eq, Int.ofNat_eq_natCast]
    omega

theorem offset?_of_lt (h : line < (ofChars cs).count) (column : Int) :
    (ofChars cs).offset? (Int.ofNat line) column =
      some (min (Int.ofNat ((ofChars cs).start line) + column)
        (Int.ofNat ((ofChars cs).start line) +
          Int.ofNat ((ofChars cs).contentAt line).length)) := by
  have hbelow : ¬ Int.ofNat line ≥ Int.ofNat (ofChars cs).count := by
    simp only [Int.ofNat_eq_natCast]
    omega
  have hpositive : ¬ Int.ofNat line < 0 := by
    simp only [Int.ofNat_eq_natCast]
    omega
  simp only [offset?, if_neg hbelow, if_neg hpositive, content_of_lt h]
  rfl

theorem endOffset?_of_lt (h : line < (ofChars cs).count) :
    (ofChars cs).endOffset? (Int.ofNat line) =
      some (Int.ofNat ((ofChars cs).start line + ((ofChars cs).contentAt line).length)) := by
  rw [endOffset?, offset?_of_lt h, content_of_lt h, Int.min_self]
  rfl

theorem start_add_content_le (h : line < (ofChars cs).count) :
    (ofChars cs).start line + ((ofChars cs).contentAt line).length ≤ (ofChars cs).stop line := by
  have hcontent : ((ofChars cs).contentAt line).length ≤
      (((ofChars cs).text.take ((ofChars cs).stop line)).drop ((ofChars cs).start line)).length :=
    (List.rdropWhile_prefix (· == '\r') _).length_le
  have hstart := start_le_stop h
  rw [List.length_drop, List.length_take] at hcontent
  omega

/-- A position on the content of a line leads to an offset that has this position. -/
theorem position_of_offset? {column : Nat} (hline : line < (ofChars cs).count)
    (hcolumn : column ≤ ((ofChars cs).content (Int.ofNat line)).length) :
    ∃ o, (ofChars cs).offset? (Int.ofNat line) (Int.ofNat column) = some o ∧
      (ofChars cs).position o = (line, column) := by
  rw [content_of_lt hline] at hcolumn
  have hstop := start_add_content_le hline
  have hlength := stop_le_length cs line
  refine ⟨Int.ofNat ((ofChars cs).start line + column), ?_, ?_⟩
  · rw [offset?_of_lt hline]
    simp only [Int.ofNat_eq_natCast]
    congr 1
    omega
  · have hwithin : (ofChars cs).start line + column ≤ cs.length := by omega
    have hclamp : (ofChars cs).clamp (Int.ofNat ((ofChars cs).start line + column)) =
        (ofChars cs).start line + column := Nat.min_eq_left hwithin
    have hat : (ofChars cs).lineAt ((ofChars cs).start line + column) = line :=
      lineAt_of_between hline (Nat.le_add_right _ _) (by omega)
    simp only [position, hclamp, hat, Nat.add_sub_cancel_left]

/-! ## From offsets to positions -/

/-- What is dropped at the end of a line reaches what stands before an offset exactly if nothing
else stands behind the offset and the last character before it is dropped as well. -/
theorem length_rdropWhile_lt_iff (p : Char → Bool) (xs ys : List Char) :
    ((xs ++ ys).rdropWhile p).length < xs.length ↔
      (∀ c ∈ ys, p c = true) ∧ ∃ c, xs.getLast? = some c ∧ p c = true := by
  by_cases hall : ∀ c ∈ ys, p c = true
  · have hdrop : (xs ++ ys).rdropWhile p = xs.rdropWhile p := by
      simp only [List.rdropWhile, List.reverse_append]
      rw [List.dropWhile_append_of_pos (by simpa using hall)]
    rw [hdrop]
    rcases List.eq_nil_or_concat xs with rfl | ⟨front, last, rfl⟩
    · simp
    · rw [List.concat_eq_append]
      by_cases hlast : p last = true
      · have hshort := (List.rdropWhile_prefix p front).length_le
        rw [List.rdropWhile_concat_pos p front last hlast]
        simp only [List.length_append, List.length_singleton]
        exact iff_of_true (by omega) ⟨hall, last, by simp, hlast⟩
      · rw [List.rdropWhile_concat_neg p front last hlast]
        simp [hlast]
  · -- A character behind the offset that is kept also keeps all before it.
    have hkept : xs.length < ((xs ++ ys).rdropWhile p).length := by
      push Not at hall
      rcases hall with ⟨c, hc, hp⟩
      rcases List.append_of_mem hc with ⟨before, after, rfl⟩
      have hlt := length_lt_rdropWhile (Bool.eq_false_iff.2 hp) (xs ++ before) after
      rw [List.append_assoc, List.length_append] at hlt
      omega
    exact iff_of_false (by omega) fun h => hall h.1

theorem getLast?_lineBefore {c : Char} (hc : c ≠ '\n') :
    (lineBefore cs offset).getLast? = some c ↔ (cs.take offset).getLast? = some c := by
  unfold lineBefore
  rcases List.eq_nil_or_concat (cs.take offset) with hnil | ⟨front, last, hlast⟩
  · rw [hnil]
    rfl
  · rw [hlast, List.concat_eq_append, List.rtakeWhile_concat]
    by_cases hfeed : last = '\n'
    · simp [hfeed, hc.symm]
    · simp [hfeed]

/-- Seen from an offset: it lies past a carriage return that ends its line if one stands before it
and nothing else behind it. -/
theorem pastReturn_iff (h : offset ≤ cs.length) :
    PastReturn cs offset ↔
      (∀ c ∈ lineAfter cs offset, (c == '\r') = true) ∧
        (lineBefore cs offset).getLast? = some '\r' := by
  rw [getLast?_lineBefore (by decide)]
  constructor
  · rintro ⟨before, after, n, rfl, -, hafter, hpast, hwithin⟩
    obtain ⟨k, rfl⟩ : ∃ k, offset = before.length + (k + 1) :=
      ⟨offset - before.length - 1, by omega⟩
    obtain ⟨m, rfl⟩ : ∃ m, n = k + 1 + m := ⟨n - (k + 1), by omega⟩
    have hcut : before ++ List.replicate (k + 1 + m) '\r' ++ after =
        (before ++ List.replicate (k + 1) '\r') ++ (List.replicate m '\r' ++ after) := by
      simp [List.replicate_add]
    have hlength : before.length + (k + 1) = (before ++ List.replicate (k + 1) '\r').length := by
      simp
    rw [lineAfter, hcut, hlength, List.drop_left, List.take_left]
    refine ⟨?_, by simp [List.replicate_succ']⟩
    have htail : after.takeWhile (· != '\n') = [] := by
      cases after with
      | nil => rfl
      | cons c rest => simp [hafter c rfl]
    rw [List.takeWhile_append_of_pos (by simp), htail, List.append_nil]
    simp
  · rintro ⟨hbehind, hbefore⟩
    -- The run goes back from the offset to the first carriage return, and on to the end of the
    -- line.
    have hback : (cs.take offset).rtakeWhile (· == '\r') = List.replicate _ '\r' :=
      List.eq_replicate_of_mem fun c => eq_return_of_mem
    have hon : lineAfter cs offset = List.replicate _ '\r' :=
      List.eq_replicate_of_mem fun c hc => beq_iff_eq.1 (hbehind c hc)
    have htake : (cs.take offset).rdropWhile (· == '\r') ++
        (cs.take offset).rtakeWhile (· == '\r') = cs.take offset :=
      List.rdropWhile_append_rtakeWhile
    have hdrop : lineAfter cs offset ++ (cs.drop offset).dropWhile (· != '\n') = cs.drop offset :=
      List.takeWhile_append_dropWhile
    have hpositive : 0 < ((cs.take offset).rtakeWhile (· == '\r')).length := by
      rcases List.eq_nil_or_concat (cs.take offset) with hnil | ⟨front, last, hlast⟩
      · simp [hnil] at hbefore
      · rw [hlast, List.concat_eq_append] at hbefore ⊢
        have hreturn : last = '\r' := by simpa using hbefore
        simp [hreturn]
    have hlength := congrArg List.length htake
    rw [List.length_append, List.length_take, Nat.min_eq_left h] at hlength
    refine ⟨(cs.take offset).rdropWhile (· == '\r'), (cs.drop offset).dropWhile (· != '\n'),
      ((cs.take offset).rtakeWhile (· == '\r')).length + (lineAfter cs offset).length,
      ?_, ?_, ?_, by omega, by omega⟩
    · rw [List.replicate_add, ← hback, ← hon, ← List.append_assoc, htake, List.append_assoc, hdrop,
        List.take_append_drop]
    · intro hlast
      have hne : (cs.take offset).rdropWhile (· == '\r') ≠ [] := by
        intro hnil
        simp [hnil] at hlast
      have hnot := List.rdropWhile_last_not (· == '\r') (cs.take offset) hne
      rw [List.getLast?_eq_some_getLast hne, Option.some.injEq] at hlast
      simp [hlast] at hnot
    · intro c hc
      have hnot := List.head?_dropWhile_not (· != '\n') (cs.drop offset)
      rw [hc] at hnot
      simpa using hnot

/-- The content of a line ends before an offset of this line exactly if the offset lies past the
first of the carriage returns that end the line. -/
theorem endOffset_lt_iff (h : offset ≤ cs.length) :
    (ofChars cs).start ((ofChars cs).lineAt offset) +
        ((ofChars cs).contentAt ((ofChars cs).lineAt offset)).length < offset ↔
      PastReturn cs offset := by
  have hbefore := lineBefore_length_le h
  have hcontent := length_rdropWhile_lt_iff (· == '\r') (lineBefore cs offset) (lineAfter cs offset)
  rw [start_eq h, contentAt_eq h, pastReturn_iff h, lineAround]
  constructor
  · intro hlt
    rcases hcontent.1 (by omega) with ⟨hbehind, c, hlast, hc⟩
    exact ⟨hbehind, by rw [hlast, beq_iff_eq.1 hc]⟩
  · rintro ⟨hbehind, hlast⟩
    have := hcontent.2 ⟨hbehind, '\r', hlast, rfl⟩
    omega

theorem position_ofNat (h : offset ≤ cs.length) :
    (ofChars cs).position (Int.ofNat offset) =
      ((ofChars cs).lineAt offset, offset - (ofChars cs).start ((ofChars cs).lineAt offset)) := by
  have hclamp : (ofChars cs).clamp (Int.ofNat offset) = offset := Nat.min_eq_left h
  simp only [position, hclamp]

/-- The position of an offset leads back to the offset, or to the end of its line if the offset lies
past it. -/
theorem offset?_of_position (h : offset ≤ cs.length) :
    (ofChars cs).offset? (Int.ofNat ((ofChars cs).position (Int.ofNat offset)).1)
        (Int.ofNat ((ofChars cs).position (Int.ofNat offset)).2) =
      some (min (Int.ofNat offset)
        (Int.ofNat ((ofChars cs).start ((ofChars cs).lineAt offset) +
          ((ofChars cs).contentAt ((ofChars cs).lineAt offset)).length))) := by
  have hstart : (ofChars cs).start ((ofChars cs).lineAt offset) ≤ offset := by
    rw [start_eq h]
    exact Nat.sub_le _ _
  rw [position_ofNat h, offset?_of_lt (lineAt_lt_count h)]
  simp only [Int.ofNat_eq_natCast]
  congr 1
  omega

/-! ## Order -/

/-- A later offset is on a later line, or on the same one and not before. -/
theorem position_mono (b : Lines) {o o' : Int} (h : o ≤ o') :
    Prod.Lex (· < ·) (· ≤ ·) (b.position o) (b.position o') := by
  have hclamp := clamp_mono b h
  rcases Nat.lt_or_eq_of_le (lineAt_mono b hclamp) with hline | hline
  · exact Prod.Lex.left _ _ hline
  · simp only [position, ← hline]
    exact Prod.Lex.right _ (Nat.sub_le_sub_right hclamp _)

/-- The conversions undo each other. Every position on a line, from its start to the end of its
content, leads to an offset that has this position. Every offset of the text has a position on a
line of the text that leads to the offset or to the end of the line, whichever comes first, and this
is the offset itself unless it lies past the first of the carriage returns that end its line. The
order of offsets, also of those outside of the text, is that of their positions. -/
theorem conversions_inverse (cs : List Char) :
    (∀ line column : Nat, line < (ofChars cs).count →
        column ≤ ((ofChars cs).content (Int.ofNat line)).length →
        ∃ o, (ofChars cs).offset? (Int.ofNat line) (Int.ofNat column) = some o ∧
          (ofChars cs).position o = (line, column)) ∧
      (∀ o line column : Nat, o ≤ cs.length →
        (ofChars cs).position (Int.ofNat o) = (line, column) →
        line < (ofChars cs).count ∧
          ∃ stop, (ofChars cs).endOffset? (Int.ofNat line) = some stop ∧
            (ofChars cs).offset? (Int.ofNat line) (Int.ofNat column) =
              some (min (Int.ofNat o) stop) ∧
            (min (Int.ofNat o) stop = Int.ofNat o ↔ ¬ PastReturn cs o)) ∧
      ∀ o o' : Int, o ≤ o' →
        Prod.Lex (· < ·) (· ≤ ·) ((ofChars cs).position o) ((ofChars cs).position o') := by
  refine ⟨fun line column hline => position_of_offset? hline, ?_, fun o o' => position_mono _⟩
  intro o line column ho hposition
  have hback := offset?_of_position ho
  rw [hposition] at hback
  obtain rfl : (ofChars cs).lineAt o = line := by
    rw [position_ofNat ho] at hposition
    exact congrArg Prod.fst hposition
  refine ⟨lineAt_lt_count ho, _, endOffset?_of_lt (lineAt_lt_count ho), hback, ?_⟩
  rw [← endOffset_lt_iff ho]
  simp only [Int.ofNat_eq_natCast]
  omega

/-- A line that ends in two carriage returns, an empty one, and one without a line feed. -/
def returnsText : List Char :=
  "ab\r\r\n\nc\r".toList

/-- Behind both carriage returns of the first line, an offset leads back to the end of its content;
in front of them, to itself. -/
theorem conversions_inverse_returnsText :
    2 < (ofChars returnsText).count ∧
      (∃ o, (ofChars returnsText).offset? (Int.ofNat 2) (Int.ofNat 1) = some o ∧
        (ofChars returnsText).position o = (2, 1)) ∧
      (ofChars returnsText).position (Int.ofNat 4) = (0, 4) ∧
      (ofChars returnsText).offset? (Int.ofNat 0) (Int.ofNat 4) = some 2 ∧
      PastReturn returnsText 4 ∧ ¬ PastReturn returnsText 2 ∧
      Prod.Lex (· < ·) (· ≤ ·) ((ofChars returnsText).position (-1))
        ((ofChars returnsText).position (Int.ofNat 4)) := by
  have hline : 2 < (ofChars returnsText).count := by decide
  have hposition : (ofChars returnsText).position (Int.ofNat 4) = (0, 4) := by decide
  have hstop : (ofChars returnsText).endOffset? (Int.ofNat 0) = some 2 := by decide
  rcases conversions_inverse returnsText with ⟨hto, hfrom, horder⟩
  rcases hfrom 4 0 4 (by decide) hposition with ⟨-, stop, hend, hback, hpast⟩
  rcases hfrom 2 0 2 (by decide) (by decide) with ⟨-, stop', hend', -, hbefore⟩
  cases hstop.symm.trans hend
  cases hstop.symm.trans hend'
  have hbehind : PastReturn returnsText 4 := by
    by_contra hnot
    exact absurd (hpast.2 hnot) (by decide)
  exact ⟨hline, hto 2 1 hline (by decide), hposition, hback, hbehind, hbefore.1 (by decide),
    horder (-1) (Int.ofNat 4) (by decide)⟩

end Lines
end Text
end YamlServer
