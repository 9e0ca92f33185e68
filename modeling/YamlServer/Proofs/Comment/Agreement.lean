import Mathlib.Data.List.Sort
import YamlServer.Proofs.Comment.Scan
import YamlServer.Proofs.Yaml.Accounting

/-!
# Comments and what reading tokens passes over

Comments are found in the text, without the reader that passed over them. The two do not always
agree. Both take a comment to start with a `#`, but they differ in what may stand before it and in
where a line ends: only a line feed ends it for a comment, while the reader knows other breaks too,
and lets a byte order mark stand before the first line.

* `Comment.found_ofChars`: what the scan finds in a text that is read to its end.
-/

namespace YamlServer
namespace Comment

open Yaml

def before? (cs : List Char) : Nat → Option Char
  | 0 => none
  | n + 1 => cs[n]?

/-- A `#` that can start a comment. -/
def Opens (cs : List Char) (offset : Nat) : Prop :=
  cs[offset]? = some '#' ∧ opensAfter (before? cs offset) = true

/-- There is no line feed from one offset up to another. -/
def SameLine (cs : List Char) (i j : Nat) : Prop :=
  ∀ k, i ≤ k → k < j → cs[k]? ≠ some '\n'

/-- An offset with `P` that is the first one on its line. -/
def FirstOnLine (cs : List Char) (P : Nat → Prop) (offset : Nat) : Prop :=
  P offset ∧ ∀ j < offset, P j → ¬ SameLine cs j offset

/-- A `#` that can start a comment, passed over outside of all tokens. -/
def Skipped (cs : List Char) (asides : List Aside) (offset : Nat) : Prop :=
  Opens cs offset ∧ ∃ a ∈ asides, a.place ≠ .inHeader ∧ a.Holds offset

/-- Whether a blank stands before an offset, or a line starts there. A byte order mark at the very
start has no width. -/
def startsFresh (cs : List Char) (offset : Nat) : Bool :=
  match before? cs offset with
  | none => true
  | some c => c == ' ' || c == '\t' || isBreak c || (c == byteOrderMark && offset == 1)

/-- The comments that are passed over, behind a blank or at the start of a line. -/
def runs (cs : List Char) (asides : List Aside) : List Aside :=
  asides.filter fun a => a.isComment && startsFresh cs a.start

/-- A line break other than a line feed, with or without a carriage return before it. -/
def LoneBreak (cs : List Char) (offset : Nat) : Prop :=
  ∃ b, cs[offset]? = some b ∧ isBreak b = true ∧ b ≠ '\n' ∧
    ¬ (b = '\r' ∧ cs[offset + 1]? = some '\n')

/-! ## The first on each line -/

section

variable {spans : List (Nat × Nat)} {cs : List Char}

/-- What a scan looks for: a `#` that can start a comment, outside the spans. -/
def Free (spans : List (Nat × Nat)) (cs : List Char) (offset : Nat) : Prop :=
  Opens cs offset ∧ covered spans offset = false

theorem sameLine_succ {i j : Nat} {c : Char} (hc : cs[j]? = some c) (hline : c ≠ '\n') :
    SameLine cs i (j + 1) ↔ SameLine cs i j := by
  constructor
  · intro h k hi hj
    exact h k hi (Nat.lt_succ_of_lt hj)
  · intro h k hi hj
    rcases Nat.lt_succ_iff_lt_or_eq.1 hj with hj | rfl
    · exact h k hi hj
    · rw [hc]
      exact fun heq => hline (Option.some.inj heq)

/-- A free `#` stands before an offset on its line. -/
def Taken (spans : List (Nat × Nat)) (cs : List Char) (i : Nat) : Prop :=
  ∃ j < i, Free spans cs j ∧ SameLine cs j i

theorem firstOnLine_iff {i : Nat} :
    FirstOnLine cs (Free spans cs) i ↔ Free spans cs i ∧ ¬ Taken spans cs i := by
  refine and_congr_right fun _ => ⟨?_, ?_⟩
  · rintro hnone ⟨j, hj, hfree, hsame⟩
    exact hnone j hj hfree hsame
  · intro huntaken j hj hfree hsame
    exact huntaken ⟨j, hj, hfree, hsame⟩

/-- A line feed starts a line on which nothing is taken. -/
theorem not_taken_succ {i : Nat} (hc : cs[i]? = some '\n') : ¬ Taken spans cs (i + 1) := by
  rintro ⟨j, hj, -, hsame⟩
  exact hsame i (Nat.le_of_lt_succ hj) (Nat.lt_succ_self i) hc

/-- Any other character takes a line if it is a free `#`, and otherwise leaves it as it is. -/
theorem taken_succ_iff {i : Nat} {c : Char} (hc : cs[i]? = some c) (hline : c ≠ '\n') :
    Taken spans cs (i + 1) ↔ Taken spans cs i ∨ Free spans cs i := by
  constructor
  · rintro ⟨j, hj, hfree, hsame⟩
    rcases Nat.lt_succ_iff_lt_or_eq.1 hj with hj | rfl
    · exact Or.inl ⟨j, hj, hfree, (sameLine_succ hc hline).1 hsame⟩
    · exact Or.inr hfree
  · rintro (⟨j, hj, hfree, hsame⟩ | hfree)
    · exact ⟨j, Nat.lt_succ_of_lt hj, hfree, (sameLine_succ hc hline).2 hsame⟩
    · refine ⟨i, Nat.lt_succ_self i, hfree, (sameLine_succ hc hline).2 ?_⟩
      intro k hi hk
      exact absurd hi (Nat.not_le_of_lt hk)

/-- From an offset on, a scan finds the first free `#` of every line. -/
theorem exists_mem_scanFrom_iff {offset : Nat} (i line : Nat) (content taken : Bool)
    (htaken : taken = true ↔ Taken spans cs i) :
    (∃ c ∈ scanFrom spans i line (before? cs i) content taken (cs.drop i), c.offset = offset) ↔
      i ≤ offset ∧ FirstOnLine cs (Free spans cs) offset := by
  -- On what is left of the text.
  induction hrest : cs.drop i generalizing i line content taken with
  | nil =>
    have hlength : cs.length ≤ i := List.drop_eq_nil_iff.1 hrest
    constructor
    · rintro ⟨c, hc, -⟩
      cases hc
    · rintro ⟨hle, ⟨⟨hsign, -⟩, -⟩, -⟩
      rw [List.getElem?_eq_none (by omega)] at hsign
      cases hsign
  | cons c rest ih =>
    have hc : cs[i]? = some c := by
      rw [← List.head?_drop, hrest]
      rfl
    have hnext : cs.drop (i + 1) = rest := by
      rw [← List.tail_drop, hrest]
      rfl
    have hbefore : before? cs (i + 1) = some c := hc
    -- If nothing is found here, the scan goes on as if it started behind it.
    have hlater : ¬ FirstOnLine cs (Free spans cs) i →
        (i + 1 ≤ offset ∧ FirstOnLine cs (Free spans cs) offset ↔
          i ≤ offset ∧ FirstOnLine cs (Free spans cs) offset) := by
      intro hnot
      refine and_congr_left fun hfirst => ⟨Nat.le_of_succ_le, fun hle => ?_⟩
      refine Nat.lt_of_le_of_ne hle ?_
      rintro rfl
      exact hnot hfirst
    rw [scanFrom]
    by_cases hline : c = '\n'
    · subst hline
      have hnot : ¬ FirstOnLine cs (Free spans cs) i := by
        rintro ⟨⟨⟨hsign, -⟩, -⟩, -⟩
        exact absurd (hc.symm.trans hsign) (by decide)
      have hgo := ih (i + 1) (line + 1) false false
        (iff_of_false Bool.false_ne_true (not_taken_succ hc)) hnext
      rw [hbefore, hlater hnot] at hgo
      rw [if_pos (beq_self_eq_true '\n')]
      exact hgo
    · have hsucc : Taken spans cs (i + 1) ↔ _ := taken_succ_iff hc hline
      rw [if_neg (mt beq_iff_eq.1 hline)]
      by_cases hopens : (c == '#' && !taken && opensAfter (before? cs i) && !covered spans i) = true
      · -- The first one of its line, behind which the line is taken.
        have hparts := hopens
        simp only [Bool.and_eq_true, Bool.not_eq_true', beq_iff_eq] at hparts
        rcases hparts with ⟨⟨⟨rfl, huntaken⟩, hblank⟩, hfree⟩
        have hfirst : FirstOnLine cs (Free spans cs) i := by
          refine firstOnLine_iff.2 ⟨⟨⟨hc, hblank⟩, hfree⟩, ?_⟩
          rw [← htaken, huntaken]
          exact Bool.false_ne_true
        have hgo := ih (i + 1) line true true
          (iff_of_true rfl (hsucc.2 (Or.inr hfirst.1))) hnext
        rw [hbefore] at hgo
        rw [if_pos hopens]
        simp only [List.exists_mem_cons_iff, hgo]
        constructor
        · rintro (rfl | ⟨hle, hfirst'⟩)
          · exact ⟨Nat.le_refl _, hfirst⟩
          · exact ⟨Nat.le_of_succ_le hle, hfirst'⟩
        · rintro ⟨hle, hfirst'⟩
          rcases Nat.lt_or_eq_of_le hle with hlt | heq
          · exact Or.inr ⟨hlt, hfirst'⟩
          · exact Or.inl heq
      · -- A free `#` here would stand behind another one on its line.
        have hhidden : Free spans cs i → Taken spans cs i := by
          rintro ⟨⟨hsign, hblank⟩, hfree⟩
          cases hc.symm.trans hsign
          rw [hblank, hfree] at hopens
          exact htaken.1 (by simpa using hopens)
        have hnot : ¬ FirstOnLine cs (Free spans cs) i := by
          rw [firstOnLine_iff]
          rintro ⟨hfree, huntaken⟩
          exact huntaken (hhidden hfree)
        have htaken' : taken = true ↔ Taken spans cs (i + 1) := by
          rw [hsucc, or_iff_left_of_imp hhidden]
          exact htaken
        have hgo := ih (i + 1) line (content || !Text.isBlank c) taken htaken' hnext
        rw [hbefore, hlater hnot] at hgo
        rw [if_neg hopens]
        exact hgo

/-- The comments of a text are the first free `#` of every line. -/
theorem exists_mem_scan_iff {tokens : List Token} {offset : Nat} :
    (∃ c ∈ scan cs tokens, c.offset = offset) ↔
      FirstOnLine cs (Free (textSpans tokens) cs) offset := by
  have huntaken : false = true ↔ Taken (textSpans tokens) cs 0 := by
    refine iff_of_false Bool.false_ne_true ?_
    rintro ⟨j, hj, -⟩
    exact absurd hj (Nat.not_lt_zero j)
  refine (exists_mem_scanFrom_iff 0 0 false false huntaken).trans ?_
  exact and_iff_right (Nat.zero_le offset)

end

/-! ## Spans -/

/-- Of the spans of texts, any two are the same or disjoint. -/
def Separate (tokens : List Token) : Prop :=
  ∀ s ∈ tokens.filterMap textSpan?, ∀ s' ∈ tokens.filterMap textSpan?,
    s = s' ∨ s.2 ≤ s'.1 ∨ s'.2 ≤ s.1

theorem textSpan?_eq_some_iff {t : Token} {span : Nat × Nat} :
    textSpan? t = some span ↔ t.kind.isText = true ∧ span.1 < span.2 ∧ span = t.extent := by
  simp only [textSpan?, Option.ite_none_right_eq_some, Bool.and_eq_true, decide_eq_true_eq,
    Option.some.injEq, and_assoc]
  refine and_congr_right fun _ => ⟨?_, ?_⟩
  · rintro ⟨hlt, rfl⟩
    exact ⟨hlt, rfl⟩
  · rintro ⟨hlt, rfl⟩
    exact ⟨hlt, rfl⟩

theorem exists_covers_iff {tokens : List Token} {offset : Nat} :
    (∃ t ∈ tokens, t.Covers offset) ↔
      ∃ s ∈ tokens.filterMap textSpan?, s.1 ≤ offset ∧ offset < s.2 := by
  constructor
  · rintro ⟨t, ht, htext, hstart, hstop⟩
    have hspan : textSpan? t = some t.extent :=
      textSpan?_eq_some_iff.2 ⟨htext, Nat.lt_of_le_of_lt hstart hstop, rfl⟩
    exact ⟨t.extent, List.mem_filterMap.2 ⟨t, ht, hspan⟩, hstart, hstop⟩
  · rintro ⟨s, hs, hstart, hstop⟩
    rcases List.mem_filterMap.1 hs with ⟨t, ht, hspan⟩
    rcases textSpan?_eq_some_iff.1 hspan with ⟨htext, -, rfl⟩
    exact ⟨t, ht, htext, hstart, hstop⟩

@[simp]
theorem mem_textSpans {tokens : List Token} {s : Nat × Nat} :
    s ∈ textSpans tokens ↔ s ∈ tokens.filterMap textSpan? :=
  List.mem_mergeSort

theorem textSpans_sorted (tokens : List Token) :
    (textSpans tokens).Pairwise fun s s' => s.1 ≤ s'.1 := by
  refine (List.pairwise_mergeSort ?_ ?_ _).imp ?_
  · intro a b c hab hbc
    grind
  · intro a b
    grind
  · intro a b hab
    grind

/-- Of separate spans, the last one that starts at or before an offset is the only one that can hold
it. -/
theorem covered_iff {tokens : List Token} (h : Separate tokens) {offset : Nat} :
    covered (textSpans tokens) offset = true ↔ ∃ t ∈ tokens, t.Covers offset := by
  rw [exists_covers_iff, covered]
  cases hlast : ((textSpans tokens).filter fun s => s.1 ≤ offset).getLast? with
  | none =>
    have hnone := List.filter_eq_nil_iff.1 (List.getLast?_eq_none_iff.1 hlast)
    refine iff_of_false Bool.false_ne_true ?_
    rintro ⟨s, hs, hstart, -⟩
    exact hnone s (mem_textSpans.2 hs) (decide_eq_true hstart)
  | some last =>
    rcases List.mem_filter.1 (List.mem_of_getLast? hlast) with ⟨hmem, hbefore⟩
    have hstart : last.1 ≤ offset := of_decide_eq_true hbefore
    rw [decide_eq_true_iff]
    refine ⟨fun hstop => ⟨last, mem_textSpans.1 hmem, hstart, hstop⟩, ?_⟩
    rintro ⟨s, hs, hstart', hstop'⟩
    -- The span that holds the offset is among those before the last one, or is the last one.
    have hle : s.1 ≤ last.1 := by
      rcases List.getLast?_eq_some_iff.1 hlast with ⟨others, heq⟩
      have hsorted := (textSpans_sorted tokens).filter fun s => s.1 ≤ offset
      have hin : s ∈ (textSpans tokens).filter fun s => s.1 ≤ offset :=
        List.mem_filter.2 ⟨mem_textSpans.2 hs, decide_eq_true hstart'⟩
      rw [heq] at hsorted hin
      rcases List.mem_append.1 hin with hin | hin
      · exact (List.pairwise_append.1 hsorted).2.2 s hin last (List.mem_singleton_self _)
      · rw [List.mem_singleton.1 hin]
    have hwide : last.1 < last.2 := by
      rcases List.mem_filterMap.1 (mem_textSpans.1 hmem) with ⟨t, -, hspan⟩
      exact (textSpan?_eq_some_iff.1 hspan).2.1
    rcases h s hs last (mem_textSpans.1 hmem) with rfl | hapart
    · exact hstop'
    · omega

theorem separate_of_inOrder {lo hi : Nat} {tokens : List Token}
    (h : InOrder Token.extent lo hi tokens) : Separate tokens := by
  intro s hs s' hs'
  rcases List.mem_filterMap.1 hs with ⟨t, ht, hspan⟩
  rcases List.mem_filterMap.1 hs' with ⟨t', ht', hspan'⟩
  rw [(textSpan?_eq_some_iff.1 hspan).2.2, (textSpan?_eq_some_iff.1 hspan').2.2]
  rcases h.eq_or_apart ht ht' with rfl | hapart
  · exact Or.inl rfl
  · exact Or.inr hapart

/-! ## What is skipped -/

section

variable {cs : List Char} {tokens : List Token} {asides : List Aside}

/-- What is outside the spans of the tokens is what was passed over. -/
theorem free_iff_skipped (h : Accounts cs cs.length tokens asides) {lo hi offset : Nat}
    (horder : InOrder Token.extent lo hi tokens) :
    Free (textSpans tokens) cs offset ↔ Skipped cs asides offset := by
  refine and_congr_right fun hopens => ?_
  have hlength : offset < cs.length := (List.getElem?_eq_some_iff.1 hopens.1).1
  rw [← Bool.not_eq_true, covered_iff (separate_of_inOrder horder)]
  constructor
  · intro hfree
    exact (h.signs offset hlength hopens.1).resolve_left hfree
  · rintro ⟨a, ha, hplace, hstart, hstop⟩ ⟨t, ht, htext, hbefore, hbehind⟩
    rcases h.apart t ht with hkind | hapart
    · rw [hkind] at htext
      cases htext
    · have hside := hapart.text htext a ha hplace
      omega

/-- The comments of a text are the first skipped `#` of every line. -/
theorem mem_offsets_iff (h : Accounts cs cs.length tokens asides) {lo hi : Nat}
    (horder : InOrder Token.extent lo hi tokens) (offset : Nat) :
    offset ∈ (scan cs tokens).map (·.offset) ↔ FirstOnLine cs (Skipped cs asides) offset := by
  have hfree : Free (textSpans tokens) cs = Skipped cs asides :=
    funext fun o => propext (free_iff_skipped h horder)
  rw [List.mem_map, exists_mem_scan_iff, hfree]

theorem aside_unique (h : Accounts cs cs.length tokens asides) {a b : Aside} (ha : a ∈ asides)
    (hb : b ∈ asides) {offset : Nat} (hholds : a.Holds offset) (hholds' : b.Holds offset) :
    a = b := by
  rcases hholds with ⟨hstart, hstop⟩
  rcases hholds' with ⟨hstart', hstop'⟩
  rcases h.order.eq_or_apart ha hb with heq | hapart
  · exact heq
  · simp only [Aside.extent] at hapart
    omega

@[simp]
theorem mem_runs {a : Aside} :
    a ∈ runs cs asides ↔ a ∈ asides ∧ a.isComment = true ∧ startsFresh cs a.start = true := by
  rw [runs, List.mem_filter, Bool.and_eq_true]

theorem sign_of_mem_runs (h : Accounts cs cs.length tokens asides) {a : Aside}
    (ha : a ∈ runs cs asides) : cs[a.start]? = some '#' ∧ a.Holds a.start := by
  rcases mem_runs.1 ha with ⟨hmem, hcomment, -⟩
  have hsign := (h.stands a hmem).sign hcomment
  exact ⟨hsign.1, Nat.le_refl _, hsign.2⟩

theorem startsFresh_of_opensAfter {offset : Nat} (h : opensAfter (before? cs offset) = true) :
    startsFresh cs offset = true := by
  unfold startsFresh
  cases hbefore : before? cs offset with
  | none => rfl
  | some c =>
    rw [hbefore] at h
    simp only [opensAfter, Bool.or_eq_true, beq_iff_eq] at h
    rcases h with (rfl | rfl) | rfl <;> rfl

/-- At the start of a line that a scan does not know, a lone break stands before, or the byte order
mark. -/
theorem loneBreak_of_startsFresh {offset : Nat} (hsign : cs[offset]? = some '#')
    (hfresh : startsFresh cs offset = true) (hclosed : opensAfter (before? cs offset) = false) :
    (∃ k, offset = k + 1 ∧ LoneBreak cs k) ∨ offset = 1 ∧ cs[0]? = some byteOrderMark := by
  cases offset with
  | zero => cases hclosed
  | succ k =>
    rw [startsFresh, before?] at hfresh
    rw [before?] at hclosed
    cases hbefore : cs[k]? with
    | none =>
      rw [hbefore] at hclosed
      cases hclosed
    | some c =>
      simp only [hbefore, opensAfter, Bool.or_eq_false_iff, beq_eq_false_iff_ne] at hclosed
      simp only [hbefore, Bool.or_eq_true, Bool.and_eq_true, beq_iff_eq] at hfresh
      rcases hclosed with ⟨⟨hfeed, hspace⟩, htab⟩
      rcases hfresh with ((hfresh | hfresh) | hbreak) | ⟨rfl, hfirst⟩
      · exact absurd hfresh hspace
      · exact absurd hfresh htab
      · refine Or.inl ⟨k, rfl, c, hbefore, hbreak, hfeed, ?_⟩
        rintro ⟨-, hnext⟩
        exact absurd (hsign.symm.trans hnext) (by decide)
      · have hzero : k = 0 := Nat.succ.inj hfirst
        exact Or.inr ⟨hfirst, hzero ▸ hbefore⟩

theorem pairwise_runs (h : Accounts cs cs.length tokens asides) :
    ((runs cs asides).map (·.start)).Pairwise (· < ·) := by
  refine List.pairwise_map.2 ((h.order.ordered.filter _).imp_of_mem ?_)
  intro a b ha _ hle
  have hlt : a.start < a.stop := (sign_of_mem_runs h ha).2.2
  simp only [Aside.extent] at hle
  omega

theorem sameLine_of_holds (h : Accounts cs cs.length tokens asides) {a : Aside} (ha : a ∈ asides)
    {i j : Nat} (hi : a.start ≤ i) (hj : j ≤ a.stop) : SameLine cs i j := by
  intro k hik hkj hline
  rcases (h.stands a ha).inner k ⟨Nat.le_trans hi hik, Nat.lt_of_lt_of_le hkj hj⟩ with
    ⟨c, hc, hbreak⟩
  rw [hc] at hline
  cases hline
  exact absurd hbreak (by decide)

/-- If something follows on the line behind an aside, a lone break divides them. -/
theorem exists_loneBreak (h : Accounts cs cs.length tokens asides) {a : Aside} (ha : a ∈ asides)
    {i j : Nat} (hi : a.Holds i) (hj : a.stop ≤ j) {c : Char} (hc : cs[j]? = some c)
    (hbreak : isBreak c = false) (hsame : SameLine cs i j) :
    ∃ k, i < k ∧ k < j ∧ LoneBreak cs k := by
  have hlength : j < cs.length := (List.getElem?_eq_some_iff.1 hc).1
  have hclose : ∃ b, cs[a.stop]? = some b :=
    ⟨_, List.getElem?_eq_getElem (Nat.lt_of_le_of_lt hj hlength)⟩
  rcases hclose with ⟨b, hb⟩
  have hbreak' : isBreak b = true := (h.stands a ha).close b hb
  -- What stands behind is no break, so the break of the aside stands before it.
  have hlt : a.stop < j := by
    refine Nat.lt_of_le_of_ne hj ?_
    intro heq
    rw [heq, hc] at hb
    cases hb
    exact absurd (hbreak.symm.trans hbreak') Bool.false_ne_true
  have hle : i ≤ a.stop := Nat.le_of_lt hi.2
  refine ⟨a.stop, hi.2, hlt, b, hb, hbreak', ?_, ?_⟩
  · rintro rfl
    exact hsame a.stop hle hlt hb
  · rintro ⟨-, hfeed⟩
    rcases Nat.lt_or_eq_of_le (Nat.succ_le_of_lt hlt) with hnext | heq
    · exact hsame (a.stop + 1) (Nat.le_succ_of_le hle) hnext hfeed
    · rw [← heq, Nat.succ_eq_add_one, hfeed] at hc
      cases hc
      exact absurd hbreak (by decide)

/-- A run behind another sign on its line stands behind a lone break. -/
theorem loneBreak_before_run (h : Accounts cs cs.length tokens asides) {a : Aside}
    (ha : a ∈ runs cs asides) {j : Nat} (hj : j < a.start) (hskipped : Skipped cs asides j)
    (hsame : SameLine cs j a.start) : ∃ k, j < k ∧ k < a.start ∧ LoneBreak cs k := by
  have hstart := sign_of_mem_runs h ha
  rcases hskipped with ⟨-, b, hb, -, hholds⟩
  -- The aside of the earlier sign ends before the run.
  have hstop : b.stop ≤ a.start := by
    rcases h.order.eq_or_apart hb (mem_runs.1 ha).1 with rfl | hapart
    · exact absurd hholds.1 (Nat.not_le_of_lt hj)
    · have hlow := hholds.1
      have hwidth := hstart.2.2
      simp only [Aside.extent] at hapart
      omega
  exact exists_loneBreak h hb hholds hstop hstart.1 (by decide) hsame

/-- So does a token behind a sign on its line. -/
theorem loneBreak_before_token (h : Accounts cs cs.length tokens asides) {i : Nat}
    (hskipped : Skipped cs asides i) {t : Token} (ht : t ∈ tokens) (hkind : t.kind ≠ .streamStart)
    (hle : i ≤ t.start.index) (hlength : t.start.index < cs.length)
    (hsame : SameLine cs i t.start.index) :
    ∃ k, i < k ∧ k < t.start.index ∧ LoneBreak cs k := by
  rcases hskipped with ⟨-, a, ha, -, hholds⟩
  have hapart := (h.apart t ht).resolve_left hkind
  have hstop : a.stop ≤ t.start.index := by
    have hout := hapart.start.outside a ha
    have hlow := hholds.1
    unfold Aside.Holds at hout
    omega
  have hchar := List.getElem?_eq_getElem hlength
  exact exists_loneBreak h ha hholds hstop hchar (hapart.start.char _ hchar).2 hsame

end

/-! ## Agreement -/

/-- What is found in a text with these tokens, `asides` being what reading them passed over. -/
structure Found (cs : List Char) (tokens : List Token) (asides : List Aside) : Prop where
  /-- Tokens and asides account for every `#` of the text. -/
  accounts : Accounts cs cs.length tokens asides
  /-- Every line has the first skipped `#` on it as its comment. -/
  first : ∀ offset, offset ∈ (scan cs tokens).map (·.offset) ↔
    FirstOnLine cs (Skipped cs asides) offset
  /-- A comment holds the rest of its line, up to the line feed. -/
  text : ∀ c ∈ scan cs tokens,
    c.text = String.ofList (Text.trimEnd ((cs.drop (c.offset + 1)).takeWhile (· != '\n')))
  /-- When the comments found are the runs that were passed over. -/
  exact_iff : (scan cs tokens).map (·.offset) = (runs cs asides).map (·.start) ↔
    (∀ a ∈ asides, a.place ≠ .inHeader) ∧
    (∀ a ∈ asides, a.place = .parameters ∨ opensAfter (before? cs a.start) = false →
      ∀ offset, a.Holds offset → ¬ FirstOnLine cs (Skipped cs asides) offset) ∧
    (∀ a ∈ runs cs asides, opensAfter (before? cs a.start) = true) ∧
    ∀ a ∈ runs cs asides, ∀ j < a.start, Skipped cs asides j → ¬ SameLine cs j a.start
  /-- The start of a run is overlooked only behind a lone break or the byte order mark. -/
  overlooked : ∀ a ∈ runs cs asides, opensAfter (before? cs a.start) = false →
    (∃ k, a.start = k + 1 ∧ LoneBreak cs k) ∨ a.start = 1 ∧ cs[0]? = some byteOrderMark
  /-- A run stands behind another skipped `#` on its line only if a lone break divides them. -/
  crowded : ∀ a ∈ runs cs asides, ∀ j < a.start, Skipped cs asides j → SameLine cs j a.start →
    ∃ k, j < k ∧ k < a.start ∧ LoneBreak cs k
  /-- A comment reaches over the start of a token only if a lone break divides them. -/
  reaching : ∀ c ∈ scan cs tokens, ∀ t ∈ tokens, t.kind ≠ .streamStart → c.offset ≤ t.start.index →
    t.start.index < cs.length → SameLine cs c.offset t.start.index →
    ∃ k, c.offset < k ∧ k < t.start.index ∧ LoneBreak cs k

section

variable {cs : List Char} {tokens : List Token} {asides : List Aside}

/-- With the comments as the first skipped `#` of every line, they are the runs on four
conditions. -/
theorem eq_runs_iff (h : Accounts cs cs.length tokens asides)
    (hfirst : ∀ offset, offset ∈ (scan cs tokens).map (·.offset) ↔
      FirstOnLine cs (Skipped cs asides) offset) :
    (scan cs tokens).map (·.offset) = (runs cs asides).map (·.start) ↔
      (∀ a ∈ asides, a.place ≠ .inHeader) ∧
      (∀ a ∈ asides, a.place = .parameters ∨ opensAfter (before? cs a.start) = false →
        ∀ offset, a.Holds offset → ¬ FirstOnLine cs (Skipped cs asides) offset) ∧
      (∀ a ∈ runs cs asides, opensAfter (before? cs a.start) = true) ∧
      ∀ a ∈ runs cs asides, ∀ j < a.start, Skipped cs asides j → ¬ SameLine cs j a.start := by
  constructor
  · intro heq
    have hrun : ∀ a ∈ runs cs asides, FirstOnLine cs (Skipped cs asides) a.start := by
      intro a ha
      rw [← hfirst, heq]
      exact List.mem_map_of_mem ha
    refine ⟨?_, ?_, fun a ha => (hrun a ha).1.1.2, fun a ha => (hrun a ha).2⟩
    · intro a ha hplace
      -- A comment in a header has a space before it, and would be skipped within its token.
      have hmem : a ∈ runs cs asides := by
        rcases (h.header a ha hplace).2 with ⟨offset, hstart, hspace⟩
        refine mem_runs.2 ⟨ha, ?_, ?_⟩
        · rw [Aside.isComment, hplace]
          rfl
        · rw [startsFresh, hstart, before?, hspace]
          rfl
      rcases (hrun a hmem).1 with ⟨-, b, hb, hother, hholds⟩
      rw [aside_unique h hb ha hholds (sign_of_mem_runs h hmem).2] at hother
      exact hother hplace
    · intro a ha hodd offset hholds hoffset
      have hmem := (hfirst offset).2 hoffset
      rw [heq] at hmem
      rcases List.mem_map.1 hmem with ⟨b, hb, rfl⟩
      have hsame := aside_unique h ha (mem_runs.1 hb).1 hholds (sign_of_mem_runs h hb).2
      rw [hsame] at hodd
      rcases hodd with hplace | hclosed
      · have hcomment := (mem_runs.1 hb).2.1
        rw [Aside.isComment, hplace] at hcomment
        cases hcomment
      · exact absurd (hclosed.symm.trans hoffset.1.1.2) Bool.false_ne_true
  · rintro ⟨hheader, hodd, hopens, hcrowded⟩
    have hsorted : ((scan cs tokens).map (·.offset)).Pairwise (· < ·) :=
      List.pairwise_map.2 ((pairwise_scan cs tokens).imp And.left)
    refine hsorted.eq_of_mem_iff (pairwise_runs h) ?_
    intro offset
    rw [hfirst]
    constructor
    · intro hoffset
      rcases hoffset.1 with ⟨-, a, ha, -, hholds⟩
      have hblank : opensAfter (before? cs a.start) = true := by
        by_cases hblank : opensAfter (before? cs a.start) = true
        · exact hblank
        · exact absurd hoffset (hodd a ha (Or.inr (Bool.eq_false_iff.2 hblank)) offset hholds)
      have hmem : a ∈ runs cs asides := by
        refine mem_runs.2 ⟨ha, ?_, startsFresh_of_opensAfter hblank⟩
        by_cases hplace : a.place = .parameters
        · exact absurd hoffset (hodd a ha (Or.inl hplace) offset hholds)
        · simpa [Aside.isComment] using hplace
      -- The sign that starts the run stands before every other one in it.
      rcases Nat.lt_or_eq_of_le hholds.1 with hlt | heq
      · have hstart := sign_of_mem_runs h hmem
        refine absurd ?_ (hoffset.2 a.start hlt ⟨⟨hstart.1, hblank⟩, a, ha, hheader a ha, hstart.2⟩)
        exact sameLine_of_holds h ha (Nat.le_refl _) (Nat.le_of_lt hholds.2)
      · exact List.mem_map.2 ⟨a, hmem, heq⟩
    · intro hoffset
      rcases List.mem_map.1 hoffset with ⟨a, ha, rfl⟩
      have hstart := sign_of_mem_runs h ha
      have hmem := (mem_runs.1 ha).1
      exact ⟨⟨⟨hstart.1, hopens a ha⟩, a, hmem, hheader a hmem, hstart.2⟩, hcrowded a ha⟩

end

/-- What is found in a text that is read to its end. -/
theorem found_ofChars {cs : List Char} (h : (TokenStream.ofChars cs).halt = none) :
    Found cs (TokenStream.ofChars cs).tokens (TokenStream.asides cs) := by
  have haccounts := TokenStream.accounts_ofChars h
  have hfirst := mem_offsets_iff haccounts (TokenStream.inOrder_ofChars cs)
  refine ⟨haccounts, hfirst, ?_, eq_runs_iff haccounts hfirst, ?_, ?_, ?_⟩
  · intro c hc
    exact text_of_mem_scan hc
  · intro a ha hclosed
    exact loneBreak_of_startsFresh (sign_of_mem_runs haccounts ha).1 (mem_runs.1 ha).2.2 hclosed
  · intro a ha j hj hskipped hsame
    exact loneBreak_before_run haccounts ha hj hskipped hsame
  · intro c hc t ht hkind hle hlength hsame
    have hskipped := ((hfirst c.offset).1 (List.mem_map_of_mem hc)).1
    exact loneBreak_before_token haccounts hskipped ht hkind hle hlength hsame

/-- The offsets of the comments found and the starts of the runs, for a text that is read to its
end. -/
def offsets? (text : String) : Option (List Nat × List Nat) :=
  if (TokenStream.ofText text).halt.isNone then
    some ((scan text.toList (TokenStream.ofText text).tokens).map (·.offset),
      (runs text.toList (TokenStream.asides text.toList)).map (·.start))
  else none

/-- A comment at the start, one in a header, and two `#` that belong to scalars. -/
def layeredText : String :=
  "# a\nb: | # c\n  x # y\nd: \"e # f\" # g\n"

theorem found_ofChars_layeredText :
    (TokenStream.ofText layeredText).halt = none ∧
      offsets? layeredText = some ([0, 32], [0, 9, 32]) ∧
      Found layeredText.toList (TokenStream.ofText layeredText).tokens
        (TokenStream.asides layeredText.toList) := by
  have hhalt : (TokenStream.ofText layeredText).halt = none := by decide +kernel
  refine ⟨hhalt, ?_, found_ofChars hhalt⟩
  rw [offsets?, scan_ofText]
  decide +kernel

def returnText : String :=
  "a: 1 # x\rb: 2 # y\n"

/-- Runs that are not found, in a header and behind lone breaks, and comments that are no run, in a
run that starts behind a scalar and among parameters. The comment of `returnText` takes in the line
behind it. -/
theorem offsets_ne_runs :
    offsets? "a: | # c\n  x\n" = some ([], [5]) ∧
      offsets? "a: 1\r# c\n" = some ([], [5]) ∧
      offsets? returnText = some ([5], [5, 14]) ∧
      (scan returnText.toList (TokenStream.ofText returnText).tokens).map (·.text) =
        [" x\rb: 2 # y"] ∧
      offsets? "\"a\"#b # c\n" = some ([6], []) ∧
      offsets? "%FOO #bar\n--- a\n" = some ([5], []) := by
  simp only [offsets?, scan_ofText]
  decide +kernel

end Comment
end YamlServer
