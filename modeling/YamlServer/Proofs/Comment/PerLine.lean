import YamlServer.Proofs.Comment.Line
import YamlServer.Proofs.Text.Position

/-!
# Comments line by line

A scan goes over the characters of a text once and asks for each `#` only the last span that starts
before it. Said line by line, without a scan: of every line, the first `#` at its start or behind a
space or a tab that no token holds in its text. The two are the same if the spans of the tokens do
not overlap, in whatever order the tokens come.

* `Comment.scan_eq_takeSigns`: the scan goes from one `#` to the next with a cursor.
-/

namespace YamlServer
namespace Comment

open Yaml Text

/-! ## The comment of a line -/

/-- A `#` at the start of its line, or behind a space or a tab, that lies in no text of a token. -/
def Begins (cs : List Char) (tokens : List Token) (start offset : Nat) : Prop :=
  cs[offset]? = some '#' ∧
    (offset = start ∨ before? cs offset = some ' ' ∨ before? cs offset = some '\t') ∧
    ∀ t ∈ tokens, ¬ t.Covers offset

instance (t : Token) (offset : Nat) : Decidable (t.Covers offset) :=
  inferInstanceAs (Decidable (_ ∧ _ ∧ _))

instance (cs : List Char) (tokens : List Token) (start : Nat) :
    DecidablePred (Begins cs tokens start) := fun _ =>
  inferInstanceAs (Decidable (_ ∧ _ ∧ _))

/-- The comment that begins at an offset. Its line is the number of line feeds before it and its
text the rest of the line without the blanks at the end; it is inline if anything but blanks
precedes it on the line. -/
def described (cs : List Char) (offset : Nat) : Comment where
  offset := offset
  line := lineFeeds cs offset
  text := String.ofList ((lineAfter cs (offset + 1)).rdropWhile isBlank)
  inline := (lineBefore cs offset).any fun c => !isBlank c

def lineOffsets (cs : List Char) (start : Nat) : List Nat :=
  List.range' start (lineAfter cs start).length

/-- Where the comment of the line that starts at `start` begins, if it has one. -/
def firstOf? (cs : List Char) (tokens : List Token) (start : Nat) : Option Nat :=
  (lineOffsets cs start).find? fun offset => Begins cs tokens start offset

def ofLine? (cs : List Char) (tokens : List Token) (start : Nat) : Option Comment :=
  (firstOf? cs tokens start).map (described cs)

/-! ## Lines -/

section

variable {cs : List Char} {start offset : Nat}

/-- A line starts with the text, or behind a line feed. -/
theorem mem_starts_iff :
    start ∈ (Lines.ofChars cs).starts ↔ start = 0 ∨ before? cs start = some '\n' := by
  rw [Lines.ofChars, List.mem_cons, Lines.mem_startsAfter_iff]
  cases start with
  | zero => simp
  | succ k => simp [before?]

/-- What stands before the start of a line is not on it. -/
theorem lt_start_of_sameLine {i : Nat} (hstart : start ∈ (Lines.ofChars cs).starts)
    (hi : i < start) (hsame : SameLine cs i offset) : offset < start := by
  rcases mem_starts_iff.1 hstart with rfl | hfeed
  · exact absurd hi (Nat.not_lt_zero i)
  · cases start with
    | zero => exact absurd hi (Nat.not_lt_zero i)
    | succ k =>
      by_contra hle
      exact hsame k (Nat.le_of_lt_succ hi) (by omega) hfeed

theorem exists_start (cs : List Char) (offset : Nat) :
    ∃ start ∈ (Lines.ofChars cs).starts, start ≤ offset ∧ SameLine cs start offset := by
  -- On the offset: behind a line feed a line starts, and elsewhere the line goes on.
  induction offset with
  | zero =>
    refine ⟨0, mem_starts_iff.2 (Or.inl rfl), Nat.le_refl 0, ?_⟩
    intro k _ hk
    exact absurd hk (Nat.not_lt_zero k)
  | succ n ih =>
    by_cases hfeed : cs[n]? = some '\n'
    · refine ⟨n + 1, mem_starts_iff.2 (Or.inr hfeed), Nat.le_refl _, ?_⟩
      intro k hle hlt
      exact absurd hle (Nat.not_le_of_lt hlt)
    · rcases ih with ⟨start, hstart, hle, hsame⟩
      refine ⟨start, hstart, Nat.le_succ_of_le hle, ?_⟩
      intro k hk hlt
      rcases Nat.lt_succ_iff_lt_or_eq.1 hlt with hlt | rfl
      · exact hsame k hk hlt
      · exact hfeed

theorem SameLine.mono {i i' j j' : Nat} (h : SameLine cs i j) (hi : i ≤ i') (hj : j' ≤ j) :
    SameLine cs i' j' := by
  intro k hik hkj
  exact h k (Nat.le_trans hi hik) (Nat.lt_of_lt_of_le hkj hj)

theorem lt_length_takeWhile_iff (xs : List Char) (n : Nat) :
    n < (xs.takeWhile (· != '\n')).length ↔ n < xs.length ∧ ∀ k ≤ n, xs[k]? ≠ some '\n' := by
  rw [List.takeWhile_eq_take_findIdx_not, List.length_take, Nat.lt_min, List.lt_findIdx_iff]
  constructor
  · rintro ⟨⟨hn, hnone⟩, -⟩
    refine ⟨hn, fun k hk hfeed => ?_⟩
    simpa [(List.getElem_of_getElem? hfeed).2] using hnone k hk
  · rintro ⟨hn, hnone⟩
    refine ⟨⟨hn, fun k hk => ?_⟩, hn⟩
    simpa [List.getElem?_eq_getElem (Nat.lt_of_le_of_lt hk hn)] using hnone k hk

theorem mem_lineOffsets_iff :
    offset ∈ lineOffsets cs start ↔
      start ≤ offset ∧ offset < cs.length ∧ SameLine cs start (offset + 1) := by
  rw [lineOffsets, List.mem_range'_1]
  refine and_congr_right fun hle => ?_
  obtain ⟨n, rfl⟩ := Nat.exists_eq_add_of_le hle
  rw [Nat.add_lt_add_iff_left, lineAfter, lt_length_takeWhile_iff, List.length_drop]
  refine and_congr (by omega) ⟨?_, ?_⟩
  · intro hnone k hk hlt
    obtain ⟨m, rfl⟩ := Nat.exists_eq_add_of_le hk
    simpa using hnone m (by omega)
  · intro hsame k hk
    simpa using hsame (start + k) (Nat.le_add_right _ _) (by omega)

end

/-! ## The first on a line -/

section

variable {cs : List Char} {tokens : List Token} {start offset : Nat}

/-- What a scan looks for on a line is what begins a comment there. -/
theorem free_iff_begins (h : Separate tokens) (hstart : start ∈ (Lines.ofChars cs).starts)
    (hle : start ≤ offset) (hsame : SameLine cs start offset) :
    Free (textSpans tokens) cs offset ↔ Begins cs tokens start offset := by
  have hcovered : covered (textSpans tokens) offset = false ↔ ∀ t ∈ tokens, ¬ t.Covers offset := by
    rw [← Bool.not_eq_true, covered_iff h]
    simp
  rw [Free, Opens, Begins, hcovered, and_assoc]
  refine and_congr_right fun hsign => and_congr_left fun _ => ?_
  rcases Nat.lt_or_eq_of_le hle with hlt | rfl
  · -- Behind the start of its line an offset has a character before it, and no line feed.
    obtain ⟨k, rfl⟩ : ∃ k, offset = k + 1 := ⟨offset - 1, by omega⟩
    have hlength : k + 1 < cs.length := (List.getElem?_eq_some_iff.1 hsign).1
    have hchar : before? cs (k + 1) = some cs[k] :=
      List.getElem?_eq_getElem (Nat.lt_of_succ_lt hlength)
    have hfeed : cs[k] ≠ '\n' := by
      intro heq
      exact hsame k (Nat.le_of_lt_succ hlt) (Nat.lt_succ_self k) (heq ▸ hchar)
    simp [hchar, opensAfter, hfeed, Nat.ne_of_gt hlt]
  · refine iff_of_true ?_ (Or.inl rfl)
    rcases mem_starts_iff.1 hstart with rfl | hfeed
    · rfl
    · rw [hfeed]
      rfl

theorem firstOf?_eq_some_iff :
    firstOf? cs tokens start = some offset ↔
      Begins cs tokens start offset ∧ offset ∈ lineOffsets cs start ∧
        ∀ j, start ≤ j → j < offset → ¬ Begins cs tokens start j := by
  rw [firstOf?, lineOffsets, List.find?_range'_eq_some]
  simp

/-- The first of a line is the first free `#` on it. -/
theorem exists_firstOf?_iff (h : Separate tokens) :
    (∃ start ∈ (Lines.ofChars cs).starts, firstOf? cs tokens start = some offset) ↔
      FirstOnLine cs (Free (textSpans tokens) cs) offset := by
  constructor
  · rintro ⟨start, hstart, hfirst⟩
    rcases firstOf?_eq_some_iff.1 hfirst with ⟨hbegins, hon, hnone⟩
    rcases mem_lineOffsets_iff.1 hon with ⟨hle, -, hsame⟩
    have hline : SameLine cs start offset := hsame.mono (Nat.le_refl _) (Nat.le_succ _)
    refine ⟨(free_iff_begins h hstart hle hline).2 hbegins, ?_⟩
    -- One before it on its line would stand behind the start of the line, and come first.
    intro j hj hfree hsame'
    have hle' : start ≤ j := by
      by_contra hlt
      exact absurd hle
        (Nat.not_le_of_lt (lt_start_of_sameLine hstart (Nat.lt_of_not_le hlt) hsame'))
    have hline' : SameLine cs start j := hline.mono (Nat.le_refl _) (Nat.le_of_lt hj)
    exact hnone j hle' hj ((free_iff_begins h hstart hle' hline').1 hfree)
  · rintro ⟨hfree, hnone⟩
    rcases exists_start cs offset with ⟨start, hstart, hle, hsame⟩
    have hsign : cs[offset]? = some '#' := hfree.1.1
    refine ⟨start, hstart, firstOf?_eq_some_iff.2 ⟨?_, ?_, ?_⟩⟩
    · exact (free_iff_begins h hstart hle hsame).1 hfree
    · have hlength : offset < cs.length := (List.getElem?_eq_some_iff.1 hsign).1
      exact mem_lineOffsets_iff.2 ⟨hle, hlength, (sameLine_succ hsign (by decide)).2 hsame⟩
    · intro j hj hlt hbegins
      have hline : SameLine cs start j := hsame.mono (Nat.le_refl _) (Nat.le_of_lt hlt)
      exact hnone j hlt ((free_iff_begins h hstart hj hline).2 hbegins)
        (hsame.mono hj (Nat.le_refl _))

/-- The lines come one after another, and so do the offsets on them. -/
theorem firstOf?_sorted (cs : List Char) (tokens : List Token) :
    ((Lines.ofChars cs).starts.filterMap (firstOf? cs tokens)).Pairwise (· < ·) := by
  refine List.pairwise_filterMap.2 ((Lines.starts_sorted cs).imp_of_mem ?_)
  intro start start' _ hstart' hlt offset hfirst offset' hfirst'
  rcases mem_lineOffsets_iff.1 (firstOf?_eq_some_iff.1 hfirst).2.1 with ⟨-, -, hsame⟩
  rcases mem_lineOffsets_iff.1 (firstOf?_eq_some_iff.1 hfirst').2.1 with ⟨hle, -, -⟩
  have hbefore := lt_start_of_sameLine hstart' hlt hsame
  omega

end

/-! ## What is found -/

section

variable {cs : List Char} {tokens : List Token} {c : Comment}

theorem lineBefore_succ {i : Nat} {a : Char} (ha : cs[i]? = some a) :
    lineBefore cs (i + 1) = if a = '\n' then [] else lineBefore cs i ++ [a] := by
  rw [lineBefore, List.take_add_one, ha, Option.toList_some, List.rtakeWhile_concat]
  by_cases hfeed : a = '\n'
  · simp [hfeed]
  · simp [hfeed, lineBefore]

/-- A comment is inline if anything but blanks stands before it on its line. -/
theorem inline_of_mem_scan (hc : c ∈ scan cs tokens) :
    c.inline = (lineBefore cs c.offset).any fun a => !isBlank a := by
  refine (of_mem_scanFrom
    (motive := fun i _ content => content = (lineBefore cs i).any fun a => !isBlank a)
    ?_ ?_ 0 0 none false false rfl hc).1
  · intro i _ content hfeed _
    rw [lineBefore_succ hfeed, if_pos rfl, List.any_nil]
  · intro i _ content a ha hother hcontent
    rw [lineBefore_succ ha, if_neg hother, List.any_append, ← hcontent, List.any_cons, List.any_nil,
      Bool.or_false]

theorem eq_described_of_mem_scan (hc : c ∈ scan cs tokens) : c = described cs c.offset := by
  have hline := line_of_mem_scan hc
  have htext := text_of_mem_scan hc
  have hinline := inline_of_mem_scan hc
  rcases c with ⟨offset, line, text, inline⟩
  simp only [described, Comment.mk.injEq, true_and]
  exact ⟨hline, htext, hinline⟩

end

/-- A scan finds the comments at the offsets of a row that goes up and has the first free `#` of
each line. -/
theorem scan_eq_map_described {cs : List Char} {tokens : List Token} {offsets : List Nat}
    (hsorted : offsets.Pairwise (· < ·))
    (hmem : ∀ i, i ∈ offsets ↔ FirstOnLine cs (Free (textSpans tokens) cs) i) :
    scan cs tokens = offsets.map (described cs) := by
  have hoffsets : (scan cs tokens).map (·.offset) = offsets := by
    have hscan : ((scan cs tokens).map (·.offset)).Pairwise (· < ·) :=
      List.pairwise_map.2 ((pairwise_scan cs tokens).imp And.left)
    refine hscan.eq_of_mem_iff hsorted fun i => ?_
    rw [List.mem_map, exists_mem_scan_iff, hmem]
  calc scan cs tokens
      = (scan cs tokens).map fun c => described cs c.offset :=
        (List.map_id _).symm.trans (List.map_congr_left fun c hc => eq_described_of_mem_scan hc)
    _ = ((scan cs tokens).map (·.offset)).map (described cs) := by rw [List.map_map]; rfl
    _ = offsets.map (described cs) := by rw [hoffsets]

/-- If the spans of the tokens do not overlap, a scan finds the comment of every line that has one,
in the order of the lines. -/
theorem scan_eq_ofLines (cs : List Char) (tokens : List Token) (h : Separate tokens) :
    scan cs tokens = (Lines.ofChars cs).starts.filterMap (ofLine? cs tokens) := by
  refine (scan_eq_map_described (firstOf?_sorted cs tokens) fun i => ?_).trans
    (List.map_filterMap ..)
  rw [List.mem_filterMap, exists_firstOf?_iff h]

/-- A scalar over two lines that holds two `#`, two more of them behind it, and a key with one. -/
def foldedText : String :=
  "a: 'x # y\n # z' # c # d\n#e\nb#f: 1\t# g \n"

theorem scan_eq_ofLines_foldedText :
    Separate (TokenStream.ofText foldedText).tokens.reverse ∧
      scan foldedText.toList (TokenStream.ofText foldedText).tokens.reverse =
        [⟨16, 1, " c # d", true⟩, ⟨24, 2, "e", false⟩, ⟨34, 3, " g", true⟩] := by
  have hseparate : Separate (TokenStream.ofText foldedText).tokens.reverse := by
    unfold Separate
    decide +kernel
  refine ⟨hseparate, ?_⟩
  rw [scan_eq_ofLines _ _ hseparate]
  decide +kernel

/-- Of spans that overlap, the last one that starts before a `#` need not hold it. -/
example : covered [(0, 5), (1, 2)] 3 = false := by
  decide

/-! ## With a cursor -/

/-- The offsets at which a comment can start. -/
def signs (cs : List Char) : List Nat :=
  (List.range cs.length).filter fun i => cs[i]? == some '#' && opensAfter (before? cs i)

/-- Take signs from left to right. Those before `skip` and those in the text of a token are passed
over, and behind one that is taken all up to the end of its line. -/
def takeSigns (spans : List (Nat × Nat)) (cs : List Char) (skip : Nat) : List Nat → List Nat
  | [] => []
  | i :: rest =>
    if i < skip || covered spans i then takeSigns spans cs skip rest
    else i :: takeSigns spans cs (i + (lineAfter cs i).length) rest

theorem mem_signs {cs : List Char} {i : Nat} : i ∈ signs cs ↔ Opens cs i := by
  simp only [signs, List.mem_filter, List.mem_range, Bool.and_eq_true, beq_iff_eq, Opens]
  exact and_iff_right_of_imp fun h => (List.getElem?_eq_some_iff.1 h.1).1

theorem sublist_takeSigns (spans : List (Nat × Nat)) (cs : List Char) (skip : Nat)
    (offsets : List Nat) : (takeSigns spans cs skip offsets).Sublist offsets := by
  fun_induction takeSigns spans cs skip offsets with
  | case1 => exact List.Sublist.refl _
  | case2 skip i rest _ ih => exact ih.cons i
  | case3 skip i rest _ ih => exact ih.cons_cons i

section

variable {spans : List (Nat × Nat)} {cs : List Char} {i j : Nat} {rest : List Nat}

theorem lt_lineEnd_iff (hi : cs[i]? = some '#') (hlt : j < i) :
    i < j + (lineAfter cs j).length ↔ SameLine cs j i := by
  have hlength : i < cs.length := (List.getElem?_eq_some_iff.1 hi).1
  have hoffsets := @mem_lineOffsets_iff cs j i
  rw [lineOffsets, List.mem_range'_1, sameLine_succ hi (by decide)] at hoffsets
  constructor
  · exact fun h => (hoffsets.1 ⟨Nat.le_of_lt hlt, h⟩).2.2
  · exact fun h => (hoffsets.2 ⟨Nat.le_of_lt hlt, hlength, h⟩).2

theorem SameLine.trans (h : SameLine cs i j) {k : Nat} (h' : SameLine cs j k) :
    SameLine cs i k := by
  intro n hi hk
  rcases Nat.lt_or_ge n j with hn | hn
  · exact h n hi hn
  · exact h' n hn hk

/-- The cursor has passed what is taken by a sign that is not to come any more. -/
def Passes (spans : List (Nat × Nat)) (cs : List Char) (skip : Nat) (offsets : List Nat) : Prop :=
  ∀ i ∈ offsets, i < skip ↔ ∃ j < i, j ∉ offsets ∧ Free spans cs j ∧ SameLine cs j i

/-- A sign that is passed over leaves the cursor where it is: one that is taken has passed before
what it would take. -/
theorem Passes.tail {skip : Nat} (h : Passes spans cs skip (i :: rest))
    (hpass : Free spans cs i → i < skip) : Passes spans cs skip rest := by
  intro k hk
  rw [h k (List.mem_cons_of_mem _ hk)]
  constructor
  · rintro ⟨j, hj, hgone, hfree, hsame⟩
    exact ⟨j, hj, fun hmem => hgone (List.mem_cons_of_mem _ hmem), hfree, hsame⟩
  · rintro ⟨j, hj, hgone, hfree, hsame⟩
    by_cases hji : j = i
    · subst hji
      rcases (h j List.mem_cons_self).1 (hpass hfree) with ⟨j', hj', hgone', hfree', hsame'⟩
      exact ⟨j', Nat.lt_trans hj' hj, hgone', hfree', hsame'.trans hsame⟩
    · exact ⟨j, hj, fun hmem => (List.mem_cons.1 hmem).elim hji hgone, hfree, hsame⟩

/-- A sign before the first one is not to come any more. -/
theorem Passes.lt_iff_taken {skip : Nat} (h : Passes spans cs skip (i :: rest))
    (hsorted : ∀ k ∈ rest, i < k) : i < skip ↔ Taken spans cs i := by
  rw [h i List.mem_cons_self]
  refine exists_congr fun j => and_congr_right fun hj => and_iff_right fun hmem => ?_
  rcases List.mem_cons.1 hmem with rfl | hmem
  · exact Nat.lt_irrefl _ hj
  · exact Nat.lt_asymm hj (hsorted j hmem)

/-- Behind a sign that is taken the cursor stands at the end of its line. -/
theorem passes_lineEnd (hfree : Free spans cs i) (hsorted : ∀ k ∈ rest, i < k)
    (hopens : ∀ k ∈ rest, Opens cs k) (hlater : ∀ k, i < k → Opens cs k → k ∈ rest) :
    Passes spans cs (i + (lineAfter cs i).length) rest := by
  intro k hk
  rw [lt_lineEnd_iff (hopens k hk).1 (hsorted k hk)]
  constructor
  · intro hsame
    exact ⟨i, hsorted k hk, fun hmem => Nat.lt_irrefl i (hsorted i hmem), hfree, hsame⟩
  · rintro ⟨j, -, hgone, hfree', hsame⟩
    have hle : j ≤ i := by
      by_contra hlt
      exact hgone (hlater j (Nat.lt_of_not_le hlt) hfree'.1)
    exact hsame.mono hle (Nat.le_refl k)

theorem mem_takeSigns {skip : Nat} {offsets : List Nat} (hsorted : offsets.Pairwise (· < ·))
    (hopens : ∀ i ∈ offsets, Opens cs i)
    (hlater : ∀ i ∈ offsets, ∀ j, i < j → Opens cs j → j ∈ offsets)
    (hskip : Passes spans cs skip offsets) :
    i ∈ takeSigns spans cs skip offsets ↔ i ∈ offsets ∧ FirstOnLine cs (Free spans cs) i := by
  -- By induction on the signs to come, for every cursor that has passed what it should.
  induction offsets generalizing skip with
  | nil => simp [takeSigns]
  | cons first rest ih =>
    rw [List.pairwise_cons] at hsorted
    have hbehind : ∀ j, first < j → Opens cs j → j ∈ rest := by
      intro j hj hopen
      exact (List.mem_cons.1 (hlater first List.mem_cons_self j hj hopen)).resolve_left
        (Nat.ne_of_gt hj)
    have hopens' : ∀ k ∈ rest, Opens cs k := fun k hk => hopens k (List.mem_cons_of_mem _ hk)
    have hrest := fun skip => @ih skip hsorted.2 hopens' fun k hk j hkj hopen =>
      hbehind j (Nat.lt_trans (hsorted.1 k hk) hkj) hopen
    have htaken := hskip.lt_iff_taken hsorted.1
    rw [takeSigns]
    -- The first sign is passed over, with the cursor left where it is, or taken.
    split
    · rename_i hpass
      simp only [Bool.or_eq_true, decide_eq_true_eq] at hpass
      have hpassed : Free spans cs first → first < skip := fun hfree =>
        hpass.resolve_right (by simp [hfree.2])
      have hnot : ¬ FirstOnLine cs (Free spans cs) first := fun hfirst =>
        (firstOnLine_iff.1 hfirst).2 (htaken.1 (hpassed hfirst.1))
      rw [hrest skip (hskip.tail hpassed), List.mem_cons]
      refine ⟨fun h => ⟨Or.inr h.1, h.2⟩, fun h => ⟨h.1.resolve_left ?_, h.2⟩⟩
      rintro rfl
      exact hnot h.2
    · rename_i hpass
      simp only [Bool.or_eq_true, decide_eq_true_eq, not_or, Bool.not_eq_true] at hpass
      have hfree : Free spans cs first := ⟨hopens first List.mem_cons_self, hpass.2⟩
      have hfirst := firstOnLine_iff.2 ⟨hfree, fun h => hpass.1 (htaken.2 h)⟩
      rw [List.mem_cons, hrest _ (passes_lineEnd hfree hsorted.1 hopens' hbehind), List.mem_cons]
      constructor
      · rintro (rfl | h)
        · exact ⟨Or.inl rfl, hfirst⟩
        · exact ⟨Or.inr h.1, h.2⟩
      · rintro ⟨rfl | hmem, h⟩
        · exact Or.inl rfl
        · exact Or.inr ⟨hmem, h⟩

end

/-- A scan takes the signs of the text one after another, with a cursor. -/
theorem scan_eq_takeSigns (cs : List Char) (tokens : List Token) :
    scan cs tokens = (takeSigns (textSpans tokens) cs 0 (signs cs)).map (described cs) := by
  have hsorted : (signs cs).Pairwise (· < ·) := List.pairwise_lt_range.filter _
  refine scan_eq_map_described (hsorted.sublist (sublist_takeSigns ..)) fun i => ?_
  refine (mem_takeSigns hsorted (fun i => mem_signs.1) (fun i _ j _ => mem_signs.2) ?_).trans
    (and_iff_right_of_imp fun h => mem_signs.2 h.1.1)
  -- At the start all signs are to come, and the cursor has passed nothing.
  intro i _
  refine iff_of_false (Nat.not_lt_zero i) ?_
  rintro ⟨j, -, hgone, hfree, -⟩
  exact hgone (mem_signs.2 hfree.1)

end Comment
end YamlServer
