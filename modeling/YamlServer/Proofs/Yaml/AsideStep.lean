import YamlServer.Proofs.Yaml.Aside
import YamlServer.Proofs.Yaml.TokenEnd

/-!
# What reading one token passes over

Between two tokens only comments and blanks are passed over. What goes along with a token depends on
its kind: the rest of its line with a directive, the comment after the header with a block scalar,
and nothing with the others. The tokens of no width that are queued on the way stand at the cursor
or at a possible key, so that none of them is found in an aside.

* `Lexer.steps_fetch`: what reading on does, seen from behind the gap.
-/

namespace YamlServer
namespace Yaml

open Cursor

namespace Lexer

/-- Where the gap before the next token starts: behind a byte order mark at the very start. -/
def gapStart (s : Lexer) : Cursor :=
  if s.cursor.mark.index == 0 && s.cursor.peek == byteOrderMark then s.cursor.skip else s.cursor

def asidesHere (s : Lexer) : List Aside :=
  if s.cursor.peek == '%' && s.cursor.mark.column == 0 then directiveAsides s.cursor
  else if (s.cursor.peek == '|' || s.cursor.peek == '>') && !s.inFlow then headerAsides s.cursor
  else []

/-- What `Lexer.fetch` passes over: the comments before the next token, and what goes with it. -/
def asides (s : Lexer) : List Aside :=
  gapAsides false s.gapStart.rest s.gapStart.mark ++ s.skipGap.asidesHere

/-- A token of the queue, or one of no width at the cursor or at a possible key. -/
def Owns (s : Lexer) (t : Token) : Prop :=
  t ∈ s.queue ∨ t.stop = t.start ∧ (t.start = s.mark ∨ ∃ k ∈ s.keys, k.2.mark = t.start)

/-- `s'` is read as far as `s`, and whatever was queued or noted since stands at the cursor or at a
possible key. -/
structure Still (s s' : Lexer) : Prop where
  cursor : s'.cursor = s.cursor
  finished : s'.finished = s.finished
  kept : ∀ t ∈ s.queue, t ∈ s'.queue
  queued : ∀ t ∈ s'.queue, s.Owns t
  keys : ∀ k ∈ s'.keys, k ∈ s.keys ∨ k.2.mark = s.mark

namespace Still

variable {s s' s'' : Lexer}

/-- With the same queue, only the keys matter. -/
theorem ofQueue (hcursor : s'.cursor = s.cursor) (hfinished : s'.finished = s.finished)
    (hqueue : s'.queue = s.queue) (hkeys : ∀ k ∈ s'.keys, k ∈ s.keys ∨ k.2.mark = s.mark) :
    Still s s' :=
  ⟨hcursor, hfinished, fun _ ht => hqueue ▸ ht, fun _ ht => Or.inl (hqueue ▸ ht), hkeys⟩

theorem refl (s : Lexer) : Still s s :=
  ofQueue rfl rfl rfl fun _ hk => Or.inl hk

theorem mark (h : Still s s') : s'.mark = s.mark :=
  congrArg Cursor.mark h.cursor

theorem owns (h : Still s s') {t : Token} (ht : s'.Owns t) : s.Owns t := by
  rcases ht with ht | ⟨hwidth, hstart | ⟨k, hk, hmark⟩⟩
  · exact h.queued t ht
  · exact Or.inr ⟨hwidth, Or.inl (hstart.trans h.mark)⟩
  · rcases h.keys k hk with hk | hk
    · exact Or.inr ⟨hwidth, Or.inr ⟨k, hk, hmark⟩⟩
    · exact Or.inr ⟨hwidth, Or.inl (hmark.symm.trans hk)⟩

theorem key (h : Still s s') {k : Int × SimpleKey} (hk : k ∈ s'.keys ∨ k.2.mark = s'.mark) :
    k ∈ s.keys ∨ k.2.mark = s.mark := by
  rcases hk with hk | hk
  · exact h.keys k hk
  · exact Or.inr (hk.trans h.mark)

theorem trans (h : Still s s') (h' : Still s' s'') : Still s s'' :=
  ⟨h'.cursor.trans h.cursor, h'.finished.trans h.finished, fun t ht => h'.kept t (h.kept t ht),
    fun t ht => h.owns (h'.queued t ht), fun k hk => h.key (h'.keys k hk)⟩

/-- Whether a key may start, and the level of flow collections, do not matter. -/
theorem set (h : Still s s') (flow : Int) (keyAllowed : Bool) :
    Still s { s' with flow := flow, keyAllowed := keyAllowed } :=
  ⟨h.cursor, h.finished, h.kept, h.queued, h.keys⟩

end Still

variable {s s' : Lexer}

/-! ## What is queued without reading -/

theorem still_dropStale (h : s.dropStale = .ok s') : Still s s' := by
  rw [dropStale_eq h]
  exact Still.ofQueue rfl rfl rfl fun _ hk => Or.inl (List.mem_filter.1 hk).1

theorem still_dropKey (h : s.dropKey = .ok s') : Still s s' := by
  unfold Lexer.dropKey at h
  split at h
  · split at h
    · cases h
    · cases h
      exact Still.ofQueue rfl rfl rfl fun _ hk => Or.inl (List.mem_filter.1 hk).1
  · cases h
    exact Still.refl s

theorem still_saveKey (h : s.saveKey = .ok s') : Still s s' := by
  unfold Lexer.saveKey at h
  split at h
  · rcases Outcome.bind_eq_ok.1 h with ⟨dropped, hdrop, hrest⟩
    cases hrest
    have hdropped := still_dropKey hdrop
    refine ⟨hdropped.cursor, hdropped.finished, hdropped.kept, hdropped.queued, ?_⟩
    intro k hk
    rcases List.mem_append.1 hk with hk | hk
    · exact hdropped.keys k hk
    · rcases List.mem_singleton.1 hk with rfl
      exact Or.inr hdropped.mark
  · cases h
    exact Still.refl s

theorem still_pushHere (kind : TokenKind) (s : Lexer) : Still s (s.pushHere kind) := by
  refine ⟨rfl, rfl, ?_, ?_, fun _ hk => Or.inl hk⟩
  · intro t ht
    exact List.mem_append_left _ ht
  · intro t ht
    rcases List.mem_append.1 ht with ht | ht
    · exact Or.inl ht
    · rcases List.mem_singleton.1 ht with rfl
      exact Or.inr ⟨rfl, Or.inl rfl⟩

theorem still_unwind (column : Int) (s : Lexer) : Still s (s.unwind column) := by
  refine unwind_induction (P := Still s) column ?_ (Still.refl s)
  intro s' indent rest _ h
  have hend := h.trans (still_pushHere .blockEnd s')
  exact ⟨hend.cursor, hend.finished, hend.kept, hend.queued, hend.keys⟩

theorem still_openOutsideFlow (kind : TokenKind) (s : Lexer) :
    Still s (if s.inFlow then s else s.openHere kind) := by
  rcases openOutsideFlow_cases kind s with heq | heq
  · rw [heq]
    exact Still.refl s
  · rw [heq]
    refine Still.trans ?_ (still_pushHere kind _)
    exact Still.ofQueue rfl rfl rfl fun _ hk => Or.inl hk

/-- Tokens put in front of a possible key stand at it. -/
theorem Still.insertBefore (h : Still s s') {k : SimpleKey}
    (hkey : ∃ k' ∈ s.keys, k'.2.mark = k.mark) (kinds : List TokenKind) :
    Still s (s'.insertBefore k kinds) := by
  refine ⟨h.cursor, h.finished, ?_, ?_, h.keys⟩
  · -- What was queued stands before or behind the place where the tokens are put.
    intro t ht
    have hmem := h.kept t ht
    rw [← List.take_append_drop (k.number - s'.taken) s'.queue] at hmem
    unfold Lexer.insertBefore
    rcases List.mem_append.1 hmem with hmem | hmem
    · exact List.mem_append_left _ (List.mem_append_left _ hmem)
    · exact List.mem_append_right _ hmem
  · intro t ht
    rcases List.mem_append.1 ht with ht | ht
    · rcases List.mem_append.1 ht with ht | ht
      · exact h.queued t (List.mem_of_mem_take ht)
      · rcases List.mem_map.1 ht with ⟨kind, -, rfl⟩
        exact Or.inr ⟨rfl, Or.inr hkey⟩
    · exact h.queued t (List.mem_of_mem_drop ht)

theorem still_putKey {k : SimpleKey} (hkey : s.key? = some k) : Still s (s.putKey k) := by
  have hmark : ∃ k' ∈ s.keys, k'.2.mark = k.mark := by
    rcases Option.map_eq_some_iff.1 hkey with ⟨k', hfind, rfl⟩
    exact ⟨k', List.mem_of_find?_eq_some hfind, rfl⟩
  rcases putKey_cases k s with ⟨opened, kinds, heq, ⟨rfl, rfl⟩ | ⟨rfl, rfl⟩⟩ <;>
  · rw [heq]
    refine Still.insertBefore ?_ hmark _
    exact Still.ofQueue rfl rfl rfl fun _ hk => Or.inl (List.mem_filter.1 hk).1

theorem still_readies {kind : TokenKind} (h : Readies s kind s') : Still s s' := by
  cases h with
  | margin hdrop => exact (still_unwind (-1) s).trans (still_dropKey hdrop)
  | part _ hsave => exact still_saveKey hsave
  | forget hdrop => exact still_dropKey hdrop
  | entry _ hdrop => exact (still_openOutsideFlow _ s).trans (still_dropKey hdrop)
  | value hkey => exact still_putKey hkey

/-! ## Reading one token -/

/-- The token `t` is read at the cursor, and `asides` are passed over with it. -/
structure Steps (s s' : Lexer) (t : Token) (asides : List Aside) : Prop where
  finished : s'.finished = s.finished
  kept : ∀ u ∈ s.queue, u ∈ s'.queue
  token : t ∈ s'.queue
  queued : ∀ u ∈ s'.queue, u = t ∨ s.Owns u
  keys : ∀ k ∈ s'.keys, k ∈ s.keys ∨ k.2.mark = s.mark
  spells : Spells s.cursor t s'.cursor asides

theorem Still.steps (h : Still s s') {t : Token} {next : Cursor} {asides : List Aside}
    (keyAllowed : Bool) (ht : Spells s'.cursor t next asides) :
    Steps s { s'.push t with cursor := next, keyAllowed := keyAllowed } t asides := by
  refine ⟨h.finished, ?_, List.mem_append_right _ List.mem_cons_self, ?_, h.keys, ?_⟩
  · intro u hu
    exact List.mem_append_left _ (h.kept u hu)
  · intro u hu
    rcases List.mem_append.1 hu with hu | hu
    · exact Or.inr (h.queued u hu)
    · exact Or.inl (List.mem_singleton.1 hu)
  · rw [← h.cursor]
    exact ht

theorem asidesHere_directive (h : (s.cursor.peek == '%' && s.cursor.mark.column == 0) = true) :
    s.asidesHere = directiveAsides s.cursor :=
  if_pos h

theorem asidesHere_blockScalar
    (h : ((s.cursor.peek == '|' || s.cursor.peek == '>') && !s.inFlow) = true) :
    s.asidesHere = headerAsides s.cursor := by
  have hdirective : ¬ (s.cursor.peek == '%' && s.cursor.mark.column == 0) = true := by
    intro hpercent
    rcases Bool.or_eq_true_iff.1 (Bool.and_eq_true_iff.1 h).1 with hpeek | hpeek <;>
    · have hsame :=
          (beq_iff_eq.1 hpeek).symm.trans (beq_iff_eq.1 (Bool.and_eq_true_iff.1 hpercent).1)
      exact absurd hsame (by decide)
  rw [asidesHere, if_neg hdirective, if_pos h]

theorem asidesHere_ordinary (h : s.Ordinary) : s.asidesHere = [] := by
  rw [asidesHere, if_neg h.1, if_neg h.2]

/-- The three characters of a document mark are alike. -/
theorem sign_notMem_separator {c : Cursor} {a : Char} (hne : '#' ≠ a)
    (hmark : c.atSeparator a = true) : '#' ∉ c.rest.take 3 := by
  have halike : ∀ b ∈ c.rest.take 3, b = a := by
    simp only [Cursor.atSeparator, Cursor.peek, Cursor.peekAt, Bool.and_eq_true, beq_iff_eq]
      at hmark
    rcases hmark with ⟨⟨⟨hfirst, hsecond⟩, hthird⟩, -⟩
    intro b hb
    rcases List.mem_iff_getElem?.1 hb with ⟨i, hi⟩
    rw [List.getElem?_take] at hi
    split at hi
    · rename_i hlt
      have hchar : c.rest.getD i endChar = b := by
        rw [List.getD_eq_getElem?_getD, hi]
        rfl
      rcases i with _ | _ | _ | i
      · rw [← hchar, ← hfirst]
        cases c.rest <;> rfl
      · exact hchar.symm.trans hsecond
      · exact hchar.symm.trans hthird
      · omega
    · cases hi
  exact fun hmem => hne (halike _ hmem)

theorem sign_notMem_first {c : Cursor} (hsign : c.peek ≠ '#') : '#' ∉ c.rest.take 1 := by
  intro hmem
  unfold Cursor.peek at hsign
  cases hcs : c.rest with
  | nil =>
    rw [hcs] at hmem
    cases hmem
  | cons a rest =>
    rw [hcs] at hmem hsign
    exact hsign (List.mem_singleton.1 hmem).symm

/-- Behind a gap, what is passed over with a token is what its first character says. -/
theorem Shows.spells {t : Token} {next : Cursor} (h : Shows s t next)
    (hrest : s.cursor.rest ≠ []) (hsign : s.cursor.peek ≠ '#') :
    Spells s.cursor t next s.asidesHere := by
  cases h with
  | directive hguard hread =>
    rw [asidesHere_directive hguard]
    exact spells_readDirective hread hrest
  | block hguard hread =>
    rw [asidesHere_blockScalar hguard]
    exact spells_readBlock hread hrest
  | documentMark hother hkind hmark =>
    rw [asidesHere_ordinary hother]
    rcases hkind with ⟨rfl, rfl⟩ | ⟨rfl, rfl⟩
    · exact spells_indicator hrest (sign_notMem_separator (by decide) hmark) TokenKind.noConfusion
    · exact spells_indicator hrest (sign_notMem_separator (by decide) hmark)
        fun _ => ⟨hmark, rfl⟩
  | indicator hother _ hkind =>
    rw [asidesHere_ordinary hother]
    exact spells_indicator hrest (sign_notMem_first hsign) fun hended => absurd hended hkind
  | text hother hread =>
    rw [asidesHere_ordinary hother]
    exact hread.spells hrest

theorem steps_fetches {t : Token} (h : Fetches s t s') (hrest : s.cursor.rest ≠ [])
    (hsign : s.cursor.peek ≠ '#') : Steps s s' t s.asidesHere := by
  cases h with
  | @read ready next flow keyAllowed hready hshows _ =>
    have hstill := (still_readies hready).set flow keyAllowed
    exact hstill.steps keyAllowed (hready.cursor ▸ hshows.spells hrest hsign)

/-- The state after the end of the stream is queued at the cursor, which shows the end. -/
structure Closes (s s' : Lexer) : Prop where
  shown : s.cursor.peek = endChar
  finished : s'.finished = true
  cursor : s'.cursor = s.cursor
  kept : ∀ u ∈ s.queue, u ∈ s'.queue
  queued : ∀ u ∈ s'.queue, s.Owns u
  keys : s'.keys = []

theorem closes_fetchStreamEnd (hend : s.cursor.peek = endChar) (h : s.fetchStreamEnd = .ok s') :
    Closes s s' := by
  rcases Outcome.bind_eq_ok.1 h with ⟨dropped, hdrop, hlast⟩
  cases hlast
  have hstill := (still_unwind (-1) s).trans (still_dropKey hdrop)
  have hpushed := hstill.trans (still_pushHere .streamEnd dropped)
  exact ⟨hend, rfl, hpushed.cursor, hpushed.kept, hpushed.queued, rfl⟩

/-- Behind a gap, the stream ends or a token is read with what is passed over along with it. -/
theorem steps_fetchHere (hsign : s.cursor.peek ≠ '#') (h : s.fetchHere = .ok s') :
    Closes s s' ∧ s.asidesHere = [] ∨ ∃ t, Steps s s' t s.asidesHere := by
  rcases fetches_fetchHere h with ⟨hend, hclose⟩ | ⟨hrest, t, hfetches⟩
  · refine Or.inl ⟨closes_fetchStreamEnd hend hclose, ?_⟩
    rw [asidesHere, hend]
    rfl
  · exact Or.inr ⟨t, steps_fetches hfetches hrest hsign⟩

/-! ## Reading on -/

section

variable {mid : Lexer} (h : Still s mid)

include h

theorem Still.transSteps {t : Token} {asides : List Aside} (h' : Steps mid s' t asides) :
    Steps s s' t asides := by
  refine ⟨h'.finished.trans h.finished, fun u hu => h'.kept u (h.kept u hu), h'.token, ?_, ?_, ?_⟩
  · intro u hu
    exact (h'.queued u hu).imp_right h.owns
  · intro k hk
    exact h.key (h'.keys k hk)
  · rw [← h.cursor]
    exact h'.spells

theorem Still.transCloses (h' : Closes mid s') : Closes s s' := by
  refine ⟨?_, h'.finished, h'.cursor.trans h.cursor, fun u hu => h'.kept u (h.kept u hu), ?_,
    h'.keys⟩
  · rw [← h.cursor]
    exact h'.shown
  · intro u hu
    exact h.owns (h'.queued u hu)

end

theorem asidesHere_congr (hcursor : s'.cursor = s.cursor) (hflow : s'.flow = s.flow) :
    s'.asidesHere = s.asidesHere := by
  rw [asidesHere, asidesHere, inFlow, inFlow, hcursor, hflow]

/-- A gap ends before a token or with the text. -/
theorem peek_gapFrom (inComment : Bool) (cs : List Char) (m : Mark) (broke : Bool) :
    (gapFrom inComment cs m broke).1.peek ≠ '#' ∧
      isBreak (gapFrom inComment cs m broke).1.peek = false := by
  induction cs generalizing inComment m broke with
  | nil =>
    have hend : endChar ≠ '#' := by decide
    exact ⟨hend, rfl⟩
  | cons a rest ih =>
    rw [gapFrom]
    split
    · exact ih _ _ _
    · rename_i hbreak
      split
      · exact ih _ _ _
      · split
        · exact ih _ _ _
        · split
          · exact ih _ _ _
          · rename_i hsign
            exact ⟨fun heq => hsign (beq_iff_eq.2 heq), Bool.not_eq_true _ ▸ hbreak⟩

theorem peek_skipGap (s : Lexer) :
    s.skipGap.cursor.peek ≠ '#' ∧ isBreak s.skipGap.cursor.peek = false :=
  peek_gapFrom false s.gapStart.rest s.gapStart.mark false

/-- What reading on does, seen from behind the gap. -/
theorem steps_fetch (h : s.fetch = .ok s') :
    Closes s.skipGap s' ∧ s.skipGap.asidesHere = [] ∨
      ∃ t, Steps s.skipGap s' t s.skipGap.asidesHere := by
  rcases Outcome.bind_eq_ok.1 h with ⟨fresh, hfresh, hhere⟩
  have hstill := (still_dropStale hfresh).trans (still_unwind (Int.ofNat fresh.mark.column) fresh)
  -- Whether a block scalar can start depends on the level of flow collections too.
  have hflow : (fresh.unwind (Int.ofNat fresh.mark.column)).flow = s.skipGap.flow := by
    rw [unwind_flow, dropStale_eq hfresh]
  have hsign := (peek_skipGap s).1
  rw [← hstill.cursor] at hsign
  rw [← asidesHere_congr hstill.cursor hflow]
  rcases steps_fetchHere hsign hhere with ⟨hcloses, hnone⟩ | ⟨t, hsteps⟩
  · exact Or.inl ⟨hstill.transCloses hcloses, hnone⟩
  · exact Or.inr ⟨t, hstill.transSteps hsteps⟩

/-- Before the next token there are comments and blanks only, and no token holds a `#` there. -/
theorem passes_skipGap (s : Lexer) :
    s.cursor.Passes (fun _ => False) s.skipGap.cursor
      (gapAsides false s.gapStart.rest s.gapStart.mark) := by
  have hstart : s.cursor.Passes (fun _ => False) s.gapStart [] := by
    unfold gapStart
    split
    · rename_i hmark
      have hpeek := beq_iff_eq.1 (Bool.and_eq_true_iff.1 hmark).2
      refine Passes.bare (reaches_skip s.cursor) ?_
      intro offset hlo hhi hsign
      have hrest := rest_eq_of_peek hpeek (by decide)
      have hend := (reaches_skip s.cursor).end_eq
      -- The byte order mark is the only character there.
      have hfirst : offset = s.cursor.mark.index := by
        rw [hrest, List.length_cons] at hend
        omega
      have hne : byteOrderMark ≠ '#' := by decide
      rw [hfirst, charAt?_mark, hrest] at hsign
      exact hne (Option.some.inj hsign)
    · exact Passes.blank (BlankTo.refl _)
  exact hstart.trans (passes_gapFrom _ false s.gapStart.rest s.gapStart.mark false)

end Lexer
end Yaml
end YamlServer
