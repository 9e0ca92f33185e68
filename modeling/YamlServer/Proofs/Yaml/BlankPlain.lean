import YamlServer.Proofs.Yaml.AsideStep
import YamlServer.Proofs.Yaml.Halts
import YamlServer.Text.Blank

/-!
# Plain scalars of blanks

Of the blanks that a text may hold, spaces and line breaks are passed over between tokens. The other
ones are the tab, which can start no token, and the wide blanks, which are characters of words:
inside of braces they make up a plain scalar, which goes on to the next tab or to the closing brace.

* `readPlain_blanks`: what is read from a wide blank on.
-/

namespace YamlServer
namespace Yaml

open Cursor

/-! ## Blanks -/

def isNarrow (c : Char) : Bool :=
  c == ' ' || isBreak c

/-- A blank that a text may hold. -/
def Blank (c : Char) : Prop :=
  Text.isBlank c = true ∧ TokenStream.Permitted c

/-- A blank is a tab, it is passed over between tokens, or it lies outside of ASCII and ends no
word. -/
theorem Blank.cases {c : Char} (h : Blank c) :
    c = '\t' ∨ isNarrow c = true ∨ isGap c = false ∧ 0xa0 ≤ c.toNat := by
  rcases h with ⟨hblank, hpermitted⟩
  by_cases htab : c = '\t'
  · exact Or.inl htab
  by_cases hnarrow : isNarrow c = true
  · exact Or.inr (Or.inl hnarrow)
  refine Or.inr (Or.inr ?_)
  simp only [isNarrow, isBreak, Bool.or_eq_true, beq_iff_eq, not_or] at hnarrow
  rcases hnarrow with ⟨hspace, ⟨⟨⟨hfeed, hreturn⟩, hnext⟩, hline⟩, hparagraph⟩
  have hspace' : c.toNat ≠ 0x20 := fun heq => hspace (Char.toNat_inj.1 heq)
  simp only [TokenStream.Permitted, htab, hfeed, hreturn, false_or] at hpermitted
  simp only [Text.isBlank, Bool.or_eq_true, Bool.and_eq_true, decide_eq_true_eq, beq_iff_eq]
    at hblank
  have hwide : 0xa0 ≤ c.toNat := by omega
  have hend : c ≠ endChar := by
    rintro rfl
    exact absurd hwide (by decide)
  refine ⟨?_, hwide⟩
  simp [isGap, endsWord, endsLine, isBreak, htab, hspace, hend, hfeed, hreturn, hnext, hline,
    hparagraph]

theorem ne_of_wide {c a : Char} (hc : 0xa0 ≤ c.toNat) (ha : a.toNat < 0xa0) : c ≠ a := by
  rintro rfl
  omega

theorem contains_eq_false_of_wide {a : Char} (h : 0xa0 ≤ a.toNat) {signs : List Char}
    (hascii : signs.all (·.toNat < 0xa0) = true) : signs.contains a = false := by
  rw [List.contains_eq_mem, decide_eq_false_iff_not]
  intro hmem
  exact ne_of_wide h (of_decide_eq_true (List.all_eq_true.1 hascii a hmem)) rfl

/-- A blank is no sign that the reader looks for. -/
theorem Blank.ne_of_sign {c : Char} (h : Blank c) {a : Char} (hblank : Text.isBlank a = false) :
    c ≠ a := by
  rintro rfl
  exact Bool.false_ne_true (hblank.symm.trans h.1)

def isWide (a : Char) : Bool :=
  !isGap a

theorem isNarrow_of_isWide {a : Char} (h : isWide a = true) : isNarrow a = false := by
  simp only [isWide, isGap, endsWord, endsLine, Bool.not_eq_true', Bool.or_eq_false_iff] at h
  rw [isNarrow, h.2.1, h.2.2.2, Bool.false_or]

theorem ne_tab_of_isWide {a : Char} (h : isWide a = true) : (a != '\t') = true := by
  rw [bne_iff_ne]
  rintro rfl
  cases h

theorem Blank.of_isWide {a : Char} (h : Blank a) (hwide : isWide a = true) :
    isGap a = false ∧ 0xa0 ≤ a.toNat := by
  rcases h.cases with rfl | hnarrow | hword
  · cases hwide
  · cases hnarrow.symm.trans (isNarrow_of_isWide hwide)
  · exact hword

/-- A blank that is neither passed over nor part of a word is a tab. -/
theorem Blank.eq_tab {a : Char} (h : Blank a) (hwide : isWide a = false)
    (hnarrow : isNarrow a = false) : a = '\t' := by
  rcases h.cases with htab | hnarrow' | ⟨hgap, -⟩
  · exact htab
  · cases hnarrow.symm.trans hnarrow'
  · rw [isWide, hgap] at hwide
    cases hwide

/-! ## What is left of a row of characters -/

theorem dropWhile_dropWhile_of_imp {p q : Char → Bool} {cs : List Char}
    (h : ∀ a, p a = true → q a = true) : (cs.dropWhile p).dropWhile q = cs.dropWhile q := by
  induction cs with
  | nil => rfl
  | cons a cs ih =>
    rw [List.dropWhile_cons, List.dropWhile_cons]
    by_cases hp : p a = true
    · rw [if_pos hp, if_pos (h a hp), ih]
    · rw [if_neg hp, List.dropWhile_cons]

theorem dropWhile_braced {p : Char → Bool} (h : p '\x7d' = false) (ws : List Char) :
    (ws ++ ['\x7d']).dropWhile p = ws.dropWhile p ++ ['\x7d'] := by
  induction ws with
  | nil => simp [h]
  | cons a ws ih =>
    rw [List.cons_append, List.dropWhile_cons, List.dropWhile_cons]
    split
    · exact ih
    · rfl

theorem dropWhile_eq_self {p : Char → Bool} {cs : List Char}
    (h : ∀ a, cs.head? = some a → p a = false) : cs.dropWhile p = cs := by
  cases cs with
  | nil => rfl
  | cons a cs => rw [List.dropWhile_cons, h a rfl, if_neg Bool.false_ne_true]

theorem of_head?_dropWhile {p : Char → Bool} {cs : List Char} {a : Char}
    (h : (cs.dropWhile p).head? = some a) : p a = false := by
  have hnot := List.head?_dropWhile_not p cs
  rw [h] at hnot
  exact hnot

theorem exists_dropWhile {p : Char → Bool} {cs : List Char} {b : Char} (hb : b ∈ cs)
    (hp : p b = false) : ∃ a more, cs.dropWhile p = a :: more ∧ p a = false ∧ b ∈ a :: more := by
  induction cs with
  | nil => cases hb
  | cons c cs ih =>
    rw [List.dropWhile_cons]
    by_cases hc : p c = true
    · rcases List.mem_cons.1 hb with rfl | hb
      · cases hp.symm.trans hc
      · rw [if_pos hc]
        exact ih hb
    · rw [if_neg hc]
      exact ⟨c, cs, rfl, Bool.eq_false_iff.2 hc, hb⟩

theorem of_takeWhile_eq_nil {p : Char → Bool} {cs : List Char} (h : cs.takeWhile p = []) {a : Char}
    (ha : cs.head? = some a) : p a = false := by
  cases cs with
  | nil => cases ha
  | cons b cs =>
    cases ha
    rw [Bool.eq_false_iff]
    intro hp
    rw [List.takeWhile_cons_of_pos hp] at h
    cases h

/-! ## Plain scalars of blanks -/

namespace Cursor

variable {c c' : Cursor}

/-- Where only spaces and line breaks were passed and none follows, all of them were passed. -/
theorem BlankTo.rest_eq (h : c.BlankTo c') (hpeek : isNarrow c'.peek = false) :
    c'.rest = c.rest.dropWhile isNarrow := by
  rcases h with ⟨n, rfl, hblank⟩
  have hpassed : ∀ a ∈ c.rest.take n, isNarrow a = true := by
    intro a ha
    rcases hblank a ha with rfl | hbreak
    · rfl
    · rw [isNarrow, hbreak, Bool.or_true]
  have hleft : c.rest.dropWhile isNarrow = (c.rest.drop n).dropWhile isNarrow := by
    calc
      c.rest.dropWhile isNarrow
          = (c.rest.take n ++ c.rest.drop n).dropWhile isNarrow := by rw [List.take_append_drop]
      _ = (c.rest.drop n).dropWhile isNarrow := List.dropWhile_append_of_pos hpassed
  rw [peek, rest_advance, List.headD_eq_head?_getD] at hpeek
  rw [rest_advance, hleft, dropWhile_eq_self]
  intro a ha
  rwa [ha] at hpeek

theorem mem_rest_of_peek {a : Char} (ha : a ≠ endChar) (h : c.peek = a) : a ∈ c.rest := by
  rw [rest_eq_of_peek h ha]
  exact List.mem_cons_self

theorem atDocumentMark_eq_false (hdash : '-' ∉ c.rest) (hdot : '.' ∉ c.rest) :
    c.atDocumentMark = false := by
  have hne : ∀ a : Char, a ≠ endChar → a ∉ c.rest → c.atSeparator a = false := by
    intro a ha hmem
    have hpeek : c.peek ≠ a := fun heq => hmem (mem_rest_of_peek ha heq)
    simp [atSeparator, hpeek]
  rw [atDocumentMark, hne _ (by decide) hdash, hne _ (by decide) hdot]
  rfl

theorem BlankTo.not_mem (h : c.BlankTo c') {a : Char} (ha : a ∉ c.rest) : a ∉ c'.rest := by
  rcases h with ⟨n, rfl, -⟩
  rw [rest_advance]
  exact fun hmem => ha (List.mem_of_mem_drop hmem)

theorem peek_skipSpaces_ne (c : Cursor) : (c.skipWhile (· == ' ')).peek ≠ ' ' := by
  unfold skipWhile
  generalize c.mark = m
  induction c.rest generalizing m with
  | nil =>
    have hend : endChar ≠ ' ' := by decide
    exact hend
  | cons a rest ih =>
    rw [skipWhileFrom]
    split
    · exact ih _
    · rename_i hspace
      exact fun heq => hspace (beq_iff_eq.2 heq)

theorem lineBreak_of_isBreak (h : isBreak c.peek = true) :
    c.lineBreak.1 ≠ [] ∧ c.lineBreak.2.rest.length < c.rest.length := by
  have hne : c.rest ≠ [] := by
    intro hnil
    rw [peek, hnil] at h
    exact absurd h (by decide)
  unfold lineBreak
  dsimp only
  split
  · -- A carriage return and a line feed are one break.
    have hpos : 0 < c.rest.length := List.length_pos_iff.2 hne
    refine ⟨List.cons_ne_nil _ _, ?_⟩
    rw [rest_advance, List.length_drop]
    omega
  · split
    · exact ⟨List.cons_ne_nil _ _, (Reaches.refl _).shorter hne⟩
    · exact ⟨List.cons_ne_nil _ _, (Reaches.refl _).shorter hne⟩

end Cursor

section

variable {c : Cursor}

/-- Blank lines without a document mark are passed to the last space and line break. -/
theorem plainBreaks_eq {fuel : Nat} (hdash : '-' ∉ c.rest) (hdot : '.' ∉ c.rest)
    (hfuel : c.rest.length < fuel) :
    (plainBreaks fuel c).1.isSome = true ∧ isNarrow (plainBreaks fuel c).2.peek = false := by
  induction fuel generalizing c with
  | zero => exact absurd hfuel (Nat.not_lt_zero _)
  | succ fuel ih =>
    rw [plainBreaks]
    by_cases hspace : c.peek = ' '
    · have hblank : c.BlankTo c.skip := BlankTo.skip (Or.inl hspace)
      have hshorter := (Reaches.refl c.skip).shorter
        (List.ne_nil_of_mem (mem_rest_of_peek (by decide) hspace))
      rw [if_pos (beq_iff_eq.2 hspace)]
      exact ih (hblank.not_mem hdash) (hblank.not_mem hdot) (by omega)
    · rw [if_neg (mt beq_iff_eq.1 hspace)]
      by_cases hbreak : isBreak c.peek = true
      · have hblank := blankTo_lineBreak c
        have hdash' := hblank.not_mem hdash
        have hdot' := hblank.not_mem hdot
        have hshorter := (lineBreak_of_isBreak hbreak).2
        rcases ih hdash' hdot' (by omega) with ⟨hsome, hpeek⟩
        rw [if_pos hbreak]
        dsimp only
        rw [if_neg (by rw [atDocumentMark_eq_false hdash' hdot']; exact Bool.false_ne_true)]
        exact ⟨by rw [Option.isSome_map]; exact hsome, hpeek⟩
      · rw [if_neg hbreak]
        refine ⟨rfl, ?_⟩
        rw [isNarrow, Bool.eq_false_iff.2 hbreak, Bool.or_false]
        exact beq_false_of_ne hspace

theorem foldBreaks_ne_nil {first : List Char} (h : first ≠ []) (more : List Char) :
    foldBreaks first more ≠ [] := by
  unfold foldBreaks
  split
  · exact fun hnil => h (List.append_eq_nil_iff.1 hnil).1
  · split
    · exact List.cons_ne_nil _ _
    · rename_i hmore
      exact fun hnil => hmore (List.isEmpty_iff.2 hnil)

/-- The gap after a word goes over all spaces and line breaks, and stands for some text if there are
any. -/
theorem plainGap_eq (hdash : '-' ∉ c.rest) (hdot : '.' ∉ c.rest) :
    (plainGap c).2.2.rest = c.rest.dropWhile isNarrow ∧
      ((plainGap c).1 = [] → isNarrow c.peek = false) := by
  have hblank := blankTo_plainGap c
  have hblanks : c.BlankTo (c.skipWhile (· == ' ')) := blankTo_skipSpaces c
  -- It passes blanks only, so it passes all of them if none follows it.
  suffices hgap : isNarrow (plainGap c).2.2.peek = false ∧
      ((plainGap c).1 = [] → isNarrow c.peek = false) from ⟨hblank.rest_eq hgap.1, hgap.2⟩
  unfold plainGap
  dsimp only [Cursor.span]
  by_cases hbreak : isBreak (c.skipWhile (· == ' ')).peek = true
  · -- Behind the spaces a line ends, and the gap goes on through blank lines.
    have hline := hblanks.trans (blankTo_lineBreak _)
    have hdash' := hline.not_mem hdash
    have hdot' := hline.not_mem hdot
    rcases plainBreaks_eq hdash' hdot' (Nat.lt_succ_self _) with ⟨hsome, hpeek⟩
    rw [if_pos hbreak, atDocumentMark_eq_false hdash' hdot', if_neg Bool.false_ne_true]
    cases hbreaks : plainBreaks ((c.skipWhile (· == ' ')).lineBreak.2.rest.length + 1)
        (c.skipWhile (· == ' ')).lineBreak.2 with
    | mk found after =>
      rw [hbreaks] at hsome hpeek
      rcases Option.isSome_iff_exists.1 hsome with ⟨more, rfl⟩
      refine ⟨hpeek, ?_⟩
      intro hnil
      exact absurd hnil (foldBreaks_ne_nil (lineBreak_of_isBreak hbreak).1 more)
  · have hhere : isNarrow (c.skipWhile (· == ' ')).peek = false := by
      rw [isNarrow, Bool.eq_false_iff.2 hbreak, Bool.or_false]
      exact beq_false_of_ne (peek_skipSpaces_ne c)
    rw [if_neg hbreak]
    refine ⟨hhere, ?_⟩
    intro hnone
    dsimp only at hnone
    have hsame : c.skipWhile (· == ' ') = c := by
      rw [skipWhile, skipWhileFrom_eq, hnone]
      rfl
    rwa [hsame] at hhere

theorem endsPlain_wide {a : Char} (hgap : isGap a = false) (hwide : 0xa0 ≤ a.toNat) (next : Char) :
    endsPlain true a next = false := by
  have hcolon : (a == ':') = false := beq_false_of_ne (ne_of_wide hwide (by decide))
  rw [endsPlain, hgap, hcolon, contains_eq_false_of_wide hwide (by decide)]
  rfl

theorem plainWord_braced {ws : List Char} (h : ∀ a ∈ ws, Blank a) :
    plainWord true (ws ++ ['\x7d']) = ws.takeWhile isWide := by
  induction ws with
  | nil => rfl
  | cons a ws ih =>
    have ha := h a List.mem_cons_self
    rw [List.cons_append, plainWord, List.takeWhile_cons]
    by_cases hwide : isWide a = true
    · rcases ha.of_isWide hwide with ⟨hgap, hfar⟩
      rw [endsPlain_wide hgap hfar, if_neg Bool.false_ne_true, if_pos hwide,
        ih fun b hb => h b (List.mem_cons_of_mem _ hb)]
    · have hgap : isGap a = true := by simpa [isWide] using hwide
      rw [if_neg hwide, endsPlain, hgap]
      rfl

/-- Where neither a word nor a gap comes first, a tab or the end does. -/
theorem dropWhile_ne_tab {ws : List Char} (h : ∀ a ∈ ws, Blank a)
    (hwide : ∀ a, ws.head? = some a → isWide a = false)
    (hnarrow : ∀ a, ws.head? = some a → isNarrow a = false) :
    ws.dropWhile (· != '\t') = ws := by
  refine dropWhile_eq_self ?_
  intro a ha
  rw [(h a (List.mem_of_mem_head? ha)).eq_tab (hwide a ha) (hnarrow a ha)]
  rfl

theorem dropWhile_ne_tab_gap (ws : List Char) :
    ((ws.dropWhile isWide).dropWhile isNarrow).dropWhile (· != '\t') =
      ws.dropWhile (· != '\t') := by
  rw [dropWhile_dropWhile_of_imp, dropWhile_dropWhile_of_imp]
  · exact fun a => ne_tab_of_isWide
  · intro a hnarrow
    rw [bne_iff_ne]
    rintro rfl
    cases hnarrow

/-- Blanks up to the closing brace hold no sign of a document. -/
theorem not_mem_braced {ws : List Char} (h : ∀ a ∈ ws, Blank a) {a : Char}
    (hblank : Text.isBlank a = false) (hbrace : a ≠ '\x7d') : a ∉ ws ++ ['\x7d'] := by
  intro hmem
  rcases List.mem_append.1 hmem with hmem | hmem
  · exact (h a hmem).ne_of_sign hblank rfl
  · exact hbrace (List.mem_singleton.1 hmem)

theorem peek_braced {ws : List Char} (h : ∀ a ∈ ws, Blank a) (hrest : c.rest = ws ++ ['\x7d'])
    {a : Char} (hblank : Text.isBlank a = false) (hbrace : a ≠ '\x7d') (hend : a ≠ endChar) :
    (c.peek == a) = false := by
  refine beq_false_of_ne ?_
  intro heq
  exact not_mem_braced h hblank hbrace (hrest ▸ mem_rest_of_peek hend heq)

/-- Behind the word come the blanks that do not belong to it. -/
theorem rest_word {ws : List Char} (hrest : c.rest = ws ++ ['\x7d']) :
    (c.advance (ws.takeWhile isWide).length).rest = ws.dropWhile isWide ++ ['\x7d'] := by
  calc
    (c.advance (ws.takeWhile isWide).length).rest
        = (ws.takeWhile isWide ++ (ws.dropWhile isWide ++ ['\x7d'])).drop
            (ws.takeWhile isWide).length := by
          rw [rest_advance, hrest, ← List.append_assoc, List.takeWhile_append_dropWhile]
    _ = ws.dropWhile isWide ++ ['\x7d'] := List.drop_left

/-- A plain scalar of blanks goes on to the next tab or to the closing brace. -/
theorem rest_plainWords {indent : Int} {fuel : Nat} {gap ws : List Char} {stop : Mark}
    {broke : Bool} (hblank : ∀ a ∈ ws, Blank a) (hrest : c.rest = ws ++ ['\x7d'])
    (hnarrow : ∀ a, ws.head? = some a → isNarrow a = false) (hfuel : ws.length < fuel) :
    (plainWords true indent fuel gap stop broke c).after.rest =
      ws.dropWhile (· != '\t') ++ ['\x7d'] := by
  -- On the fuel: each word and the gap behind it take one step.
  induction fuel generalizing gap ws stop broke c with
  | zero => exact absurd hfuel (Nat.not_lt_zero _)
  | succ fuel ih =>
    rw [plainWords, hrest, plainWord_braced hblank,
      peek_braced hblank hrest (by decide) (by decide) (by decide), Bool.false_or]
    dsimp only
    by_cases hempty : ws.takeWhile isWide = []
    · -- There is no word: a tab or the brace comes first.
      rw [hempty, List.isEmpty_nil, if_pos rfl,
        dropWhile_ne_tab hblank (fun a => of_takeWhile_eq_nil hempty) hnarrow]
      exact hrest
    · rw [if_neg (mt List.isEmpty_iff.1 hempty)]
      have hwide : ∀ a ∈ ws.dropWhile isWide, Blank a :=
        fun a ha => hblank a (List.dropWhile_subset _ ha)
      have hword := rest_word hrest
      have hsign : ∀ a, Text.isBlank a = false → a ≠ '\x7d' →
          a ∉ (c.advance (ws.takeWhile isWide).length).rest := by
        intro a ha hbrace
        rw [hword]
        exact not_mem_braced hwide ha hbrace
      rcases plainGap_eq (hsign '-' (by decide) (by decide))
        (hsign '.' (by decide) (by decide)) with ⟨hnext, hnone⟩
      rw [hword, dropWhile_braced (by decide)] at hnext
      have hgap : ∀ a ∈ (ws.dropWhile isWide).dropWhile isNarrow, Blank a :=
        fun a ha => hwide a (List.dropWhile_subset _ ha)
      rw [peek_braced hgap hnext (by decide) (by decide) (by decide), Bool.or_false, Bool.not_true,
        Bool.false_and, Bool.or_false, ← dropWhile_ne_tab_gap]
      by_cases hlast : (plainGap (c.advance (ws.takeWhile isWide).length)).1 = []
      · -- The word is the last one: no space follows it, so a tab or the brace does.
        have hhead : ∀ a, (ws.dropWhile isWide).head? = some a → isNarrow a = false := by
          intro a ha
          have hpeek := hnone hlast
          rwa [peek, hword, List.headD_eq_head?_getD, List.head?_append, ha] at hpeek
        rw [if_pos (List.isEmpty_iff.2 hlast), hnext, dropWhile_eq_self hhead,
          dropWhile_ne_tab hwide (fun a => of_head?_dropWhile) hhead]
      · rw [if_neg (mt List.isEmpty_iff.1 hlast)]
        refine ih hgap hnext (fun a => of_head?_dropWhile) ?_
        have hword : 0 < (ws.takeWhile isWide).length := List.length_pos_iff.2 hempty
        have hlength := congrArg List.length (@List.takeWhile_append_dropWhile _ isWide ws)
        have hle := (List.dropWhile_sublist isNarrow (l := ws.dropWhile isWide)).length_le
        rw [List.length_append] at hlength
        omega

/-- The text of a plain scalar starts with its first word. -/
theorem content_plainWords {a : Char} {ws : List Char} (hblank : ∀ b ∈ a :: ws, Blank b)
    (hwide : isWide a = true) (hrest : c.rest = a :: ws ++ ['\x7d']) (indent : Int) (fuel : Nat)
    (stop : Mark) (broke : Bool) :
    ∃ more, (plainWords true indent (fuel + 1) [] stop broke c).content = a :: more := by
  rw [plainWords, hrest, plainWord_braced hblank,
    peek_braced hblank hrest (by decide) (by decide) (by decide), Bool.false_or,
    List.takeWhile_cons_of_pos hwide]
  dsimp only
  rw [if_neg (by exact Bool.false_ne_true)]
  split
  · exact ⟨_, rfl⟩
  · exact ⟨_, rfl⟩

/-- A plain scalar that starts with a wide blank. -/
theorem readPlain_blanks {a : Char} {ws : List Char} (hblank : ∀ b ∈ a :: ws, Blank b)
    (hwide : isWide a = true) (hrest : c.rest = a :: ws ++ ['\x7d']) (parent : Int) :
    (∃ more, (readPlain true parent c).1.kind = .scalar (String.ofList (a :: more)) none) ∧
      (readPlain true parent c).2.2.rest = ws.dropWhile (· != '\t') ++ ['\x7d'] := by
  have hnarrow : ∀ b, (a :: ws).head? = some b → isNarrow b = false := by
    intro b hb
    cases hb
    exact isNarrow_of_isWide hwide
  have hlength : (a :: ws).length < c.rest.length + 1 := by
    rw [hrest, List.length_append]
    omega
  constructor
  · rcases content_plainWords hblank hwide hrest (parent + 1) c.rest.length c.mark false with
      ⟨more, hmore⟩
    exact ⟨more, by rw [readPlain, hmore]⟩
  · rw [← List.dropWhile_cons_of_pos (p := (· != '\t')) (ne_tab_of_isWide hwide)]
    exact rest_plainWords hblank hrest hnarrow hlength

end

end Yaml
end YamlServer
