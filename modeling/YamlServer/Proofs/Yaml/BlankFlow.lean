import YamlServer.Proofs.Yaml.BlankPlain
import YamlServer.Proofs.Yaml.TokenEnd

/-!
# The tokens of blanks between braces

Spaces and line breaks between braces give no token. A tab stops the reading, and other blanks
between the braces are the text of one plain scalar.

* `TokenStream.ofChars_narrow`, `TokenStream.ofChars_tab`, `TokenStream.ofChars_wide`: the tokens of
  blanks between braces.
-/

namespace YamlServer
namespace Yaml

open Cursor

/-! ## Idle states -/

namespace Lexer

/-- A state outside of blocks, with `rest` ahead, in which no key is required. -/
structure Idle (rest : List Char) (flow : Int) (s : Lexer) : Prop where
  ahead : s.cursor.rest = rest
  level : s.flow = flow
  unfinished : s.finished = false
  indent : s.indent = -1
  outer : s.outer = []
  keys : ∀ k ∈ s.keys, k.2.required = false

namespace Idle

variable {rest : List Char} {flow : Int} {s s' : Lexer}

theorem dropStale (h : Idle rest flow s) :
    ∃ s', s.dropStale = .ok s' ∧ Idle rest flow s' ∧ s'.queue = s.queue := by
  have hfree : (s.keys.any fun k => s.isStale k.2 && k.2.required) = false := by
    rw [List.any_eq_false]
    intro k hk
    rw [h.keys k hk, Bool.and_false]
    exact Bool.false_ne_true
  refine ⟨{ s with keys := s.keys.filter fun k => !s.isStale k.2 }, ?_, ?_, rfl⟩
  · rw [Lexer.dropStale, hfree, if_neg Bool.false_ne_true]
  · exact ⟨h.ahead, h.level, h.unfinished, h.indent, h.outer,
      fun k hk => h.keys k (List.mem_filter.1 hk).1⟩

theorem dropKey (h : Idle rest flow s) :
    ∃ s', s.dropKey = .ok s' ∧ Idle rest flow s' ∧ s'.queue = s.queue := by
  unfold Lexer.dropKey
  split
  · rename_i k hkey
    rcases Option.map_eq_some_iff.1 hkey with ⟨entry, hfind, rfl⟩
    rw [h.keys entry (List.mem_of_find?_eq_some hfind), if_neg Bool.false_ne_true]
    refine ⟨_, rfl, ?_, rfl⟩
    exact ⟨h.ahead, h.level, h.unfinished, h.indent, h.outer,
      fun k hk => h.keys k (List.mem_filter.1 hk).1⟩
  · exact ⟨s, rfl, h, rfl⟩

/-- A key outside of blocks is not required. -/
theorem saveKey (h : Idle rest flow s) :
    ∃ s', s.saveKey = .ok s' ∧ Idle rest flow s' ∧ s'.queue = s.queue := by
  unfold Lexer.saveKey
  split
  · rcases h.dropKey with ⟨s', hdrop, hidle, hqueue⟩
    -- The indentation is that of no block, which is no column.
    have hcolumn : (s.indent == Int.ofNat s.mark.column) = false := by
      refine beq_false_of_ne ?_
      rw [h.indent, Int.ofNat_eq_natCast]
      omega
    refine
      ⟨{ s' with keys := s'.keys ++ [(s'.flow, ⟨s'.taken + s'.queue.length, false, s'.mark⟩)] },
      ?_, ?_, hqueue⟩
    · rw [hdrop, hcolumn, Bool.and_false]
      rfl
    · refine ⟨hidle.ahead, hidle.level, hidle.unfinished, hidle.indent, hidle.outer, ?_⟩
      intro k hk
      rcases List.mem_append.1 hk with hk | hk
      · exact hidle.keys k hk
      · rw [List.mem_singleton.1 hk]
  · exact ⟨s, rfl, h, rfl⟩

theorem unwind (h : Idle rest flow s) (column : Int) : s.unwind column = s := by
  rw [Lexer.unwind, h.outer]
  split <;> rfl

theorem take (h : Idle rest flow s) (queue : List Token) (taken : Nat) :
    Idle rest flow { s with queue, taken } :=
  ⟨h.ahead, h.level, h.unfinished, h.indent, h.outer, h.keys⟩

/-- A gap without comments goes over spaces and line breaks. -/
theorem rest_gapFrom {cs : List Char} (h : '#' ∉ cs) (m : Mark) (broke : Bool) :
    (gapFrom false cs m broke).1.rest = cs.dropWhile isNarrow := by
  induction cs generalizing m broke with
  | nil => rfl
  | cons c rest ih =>
    simp only [List.mem_cons, not_or] at h
    rcases h with ⟨hsign, hrest⟩
    rw [gapFrom, List.dropWhile_cons, isNarrow]
    by_cases hbreak : isBreak c = true
    · rw [if_pos hbreak, hbreak, Bool.or_true, if_pos rfl]
      exact ih hrest _ _
    · rw [if_neg hbreak, if_neg Bool.false_ne_true, Bool.eq_false_iff.2 hbreak,
        Bool.or_false]
      by_cases hspace : (c == ' ') = true
      · rw [if_pos hspace, if_pos hspace]
        exact ih hrest _ _
      · rw [if_neg hspace, if_neg hspace, if_neg (mt beq_iff_eq.1 (Ne.symm hsign))]

/-- Reading on passes over a gap, and reads the token behind it. -/
theorem fetch (h : Idle rest flow s) (hsign : '#' ∉ rest) (hmark : byteOrderMark ∉ rest) :
    ∃ s', s.fetch = s'.fetchHere ∧ Idle (rest.dropWhile isNarrow) flow s' ∧ s'.queue = s.queue := by
  -- Only a byte order mark would be passed in front of the gap.
  have hstart : s.gapStart = s.cursor := by
    refine if_neg ?_
    rw [Bool.and_eq_true, beq_iff_eq, beq_iff_eq]
    rintro ⟨-, hpeek⟩
    rw [peek, h.ahead] at hpeek
    cases rest with
    | nil => exact absurd hpeek (by decide)
    | cons c more => exact hmark (hpeek ▸ List.mem_cons_self)
  have hgap : Idle (rest.dropWhile isNarrow) flow s.skipGap := by
    refine ⟨?_, h.level, h.unfinished, h.indent, h.outer, h.keys⟩
    rw [← h.ahead] at hsign ⊢
    rw [← hstart] at hsign ⊢
    exact rest_gapFrom hsign _ _
  rcases hgap.dropStale with ⟨s', hdrop, hidle, hqueue⟩
  refine ⟨s', ?_, hidle, hqueue⟩
  rw [Lexer.fetch, hdrop]
  exact congrArg fetchHere (hidle.unwind _)

theorem peek_eq (h : Idle rest flow s) : s.cursor.peek = rest.headD endChar := by
  rw [peek, h.ahead]

theorem skip_cursor {c : Char} (h : Idle (c :: rest) flow s) :
    (s.cursor.advance 1).rest = rest := by
  rw [rest_advance, h.ahead]
  rfl

/-! ### What is read -/

theorem fetchHere_end (h : Idle [] flow s) :
    ∃ s' t, s.fetchHere = .ok s' ∧ s'.queue = s.queue ++ [t] ∧ s'.finished = true ∧
      t.kind = .streamEnd := by
  have hhere : s.fetchHere = s.fetchStreamEnd := by
    rw [fetchHere, h.peek_eq]
    rfl
  rcases h.dropKey with ⟨s', hdrop, hidle, hqueue⟩
  refine ⟨{ ({ s' with keyAllowed := false, keys := [] } : Lexer).pushHere .streamEnd with
    finished := true }, ⟨.streamEnd, s'.mark, s'.mark⟩, ?_, ?_, rfl, rfl⟩
  · rw [hhere, fetchStreamEnd, h.unwind, hdrop]
    rfl
  · rw [← hqueue]
    rfl

/-- A character other than the marks of directives and documents is not looked at from the start of
its line. -/
theorem atSeparator_eq_false {c : Char} (h : Idle (c :: rest) flow s) {a : Char} (hne : c ≠ a) :
    s.cursor.atSeparator a = false := by
  rw [atSeparator, h.peek_eq]
  simp [hne]

theorem fetchHere_close (h : Idle ('\x7d' :: rest) flow s) :
    ∃ s' t, s.fetchHere = .ok s' ∧ s'.queue = s.queue ++ [t] ∧ Idle rest (flow - 1) s' ∧
      t.kind = .flowMappingEnd := by
  have hhere : s.fetchHere = s.fetchFlowEnd .flowMappingEnd := by
    rw [fetchHere, h.peek_eq, h.atSeparator_eq_false (by decide),
      h.atSeparator_eq_false (by decide)]
    simp [endChar]
  rcases h.dropKey with ⟨s', hdrop, hidle, hqueue⟩
  refine ⟨({ s' with flow := s'.flow - 1, keyAllowed := false } : Lexer).pushIndicator
    .flowMappingEnd 1, ⟨.flowMappingEnd, s'.mark, (s'.cursor.advance 1).mark⟩, ?_, ?_, ?_, rfl⟩
  · rw [hhere, fetchFlowEnd, hdrop]
    rfl
  · rw [← hqueue]
    rfl
  · exact ⟨hidle.skip_cursor, congrArg (· - 1) hidle.level, hidle.unfinished, hidle.indent,
      hidle.outer, hidle.keys⟩

theorem fetchHere_open (h : Idle ('\x7b' :: rest) flow s) :
    ∃ s' t, s.fetchHere = .ok s' ∧ s'.queue = s.queue ++ [t] ∧ Idle rest (flow + 1) s' ∧
      t.kind = .flowMappingStart := by
  have hhere : s.fetchHere = s.fetchFlowStart .flowMappingStart := by
    rw [fetchHere, h.peek_eq, h.atSeparator_eq_false (by decide),
      h.atSeparator_eq_false (by decide)]
    simp [endChar]
  rcases h.saveKey with ⟨s', hsave, hidle, hqueue⟩
  refine ⟨({ s' with flow := s'.flow + 1, keyAllowed := true } : Lexer).pushIndicator
    .flowMappingStart 1, ⟨.flowMappingStart, s'.mark, (s'.cursor.advance 1).mark⟩, ?_, ?_, ?_, rfl⟩
  · rw [hhere, fetchFlowStart, hsave]
    rfl
  · rw [← hqueue]
    rfl
  · exact ⟨hidle.skip_cursor, congrArg (· + 1) hidle.level, hidle.unfinished, hidle.indent,
      hidle.outer, hidle.keys⟩

theorem fetchHere_tab (h : Idle ('\t' :: rest) flow s) :
    s.fetchHere = .error (.lex (.strayCharacter '\t') s.cursor.mark.index) := by
  have hplain : startsPlain s.inFlow s.cursor = false := by
    rw [startsPlain, h.peek_eq]
    simp [isGap]
  rw [fetchHere, hplain, h.peek_eq, h.atSeparator_eq_false (by decide),
    h.atSeparator_eq_false (by decide)]
  simp [endChar]

/-- A character outside of ASCII that ends no word starts a plain scalar. -/
theorem fetchHere_wide {c : Char} (h : Idle (c :: rest) flow s) (hgap : isGap c = false)
    (hwide : 0xa0 ≤ c.toNat) : s.fetchHere = s.fetchPlain := by
  have hne : ∀ a : Char, a.toNat < 0xa0 → (c == a) = false :=
    fun a ha => beq_false_of_ne (ne_of_wide hwide ha)
  have hplain : startsPlain s.inFlow s.cursor = true := by
    rw [startsPlain, h.peek_eq, List.headD_cons, hgap, contains_eq_false_of_wide hwide (by decide)]
    rfl
  have hmarks : ∀ a : Char, a.toNat < 0xa0 → s.cursor.atSeparator a = false :=
    fun a ha => h.atSeparator_eq_false (ne_of_wide hwide ha)
  rw [fetchHere, hplain, h.peek_eq, List.headD_cons, hmarks _ (by decide), hmarks _ (by decide)]
  simp [hne _ (by decide : endChar.toNat < 0xa0), hne]

end Idle
end Lexer

/-! ## Runs -/

namespace TokenStream

open Lexer

def prepend (front : List Token) (s : TokenStream) : TokenStream :=
  ⟨front ++ s.tokens, s.halt⟩

/-- When nothing is left to read, the queue is taken token by token. -/
theorem runFrom_finished {s : Lexer} (h : s.finished = true) {fuel : Nat}
    (hfuel : s.queue.length < fuel) : runFrom fuel s = ⟨s.queue, none⟩ := by
  induction fuel generalizing s with
  | zero => exact absurd hfuel (Nat.not_lt_zero _)
  | succ fuel ih =>
    rw [runFrom_succ, move]
    cases hqueue : s.queue with
    | nil =>
      dsimp only
      rw [if_pos h, follow]
    | cons t rest =>
      rw [hqueue, List.length_cons] at hfuel
      have hnext := @ih { s with queue := rest, taken := s.taken + 1 } h
        (Nat.lt_of_succ_lt_succ hfuel)
      dsimp only
      rw [if_pos h, follow, hnext]
      rfl

end TokenStream

namespace Lexer.Idle

open TokenStream

variable {rest : List Char} {flow : Int} {s s' : Lexer}

/-- A run takes tokens from the queue until it reads on. -/
theorem exists_readOn (h : Idle rest flow s) {fuel : Nat} (hfuel : s.queue.length < fuel) :
    ∃ front s' left, s.queue = front ++ s'.queue ∧ Idle rest flow s' ∧
      fuel = left + front.length + 1 ∧ runFrom fuel s = (readOn left s').prepend front := by
  -- On the fuel: taking a token leaves an idle state with a shorter queue.
  induction fuel generalizing s with
  | zero => exact absurd hfuel (Nat.not_lt_zero _)
  | succ fuel ih =>
    rw [runFrom_succ]
    generalize hmove : move s = next
    have hmoves : Moves s next := hmove ▸ moves_move s
    rcases h.dropStale with ⟨s', hdrop, hidle, hqueue⟩
    cases hmoves with
    | finish _ hfinished => cases h.unfinished.symm.trans hfinished
    | stop _ hstop => cases hdrop.symm.trans hstop
    | takeLast hfinished _ => cases h.unfinished.symm.trans hfinished
    | @read fresh _ hfresh =>
      refine ⟨[], fresh, fuel, ?_, ?_, rfl, rfl⟩
      · rcases hfresh with rfl | hfresh
        · rfl
        · cases hdrop.symm.trans hfresh
          exact hqueue.symm
      · rcases hfresh with rfl | hfresh
        · exact h
        · cases hdrop.symm.trans hfresh
          exact hidle
    | @take fresh t more _ hfresh _ hhead =>
      cases hdrop.symm.trans hfresh
      rw [hqueue] at hhead
      rw [hhead, List.length_cons] at hfuel
      rcases ih (hidle.take more (s'.taken + 1)) (Nat.lt_of_succ_lt_succ hfuel) with
        ⟨front, last, left, hsplit, hlast, hleft, hrun⟩
      refine ⟨t :: front, last, left, ?_, hlast, ?_, ?_⟩
      · rw [hhead, List.cons_append, ← hsplit]
      · rw [hleft, List.length_cons]
        omega
      · rw [follow, hrun]
        rfl

/-- If a token can be read behind the gap, a run queues it and goes on from there. -/
theorem runFrom_queued {Q : Lexer → Token → Prop} (h : Idle rest flow s) (hsign : '#' ∉ rest)
    (hmark : byteOrderMark ∉ rest) {fuel : Nat} (hfuel : s.queue.length < fuel)
    (hhere : ∀ {s'}, Idle (rest.dropWhile isNarrow) flow s' →
      ∃ s'' t, s'.fetchHere = .ok s'' ∧ s''.queue = s'.queue ++ [t] ∧ Q s'' t) :
    ∃ front s' t left, front <+: s.queue ∧ front ++ s'.queue = s.queue ++ [t] ∧ Q s' t ∧
      fuel = left + front.length + 1 ∧ runFrom fuel s = (runFrom left s').prepend front := by
  rcases h.exists_readOn hfuel with ⟨front, s₁, left, hsplit, hidle, hleft, hrun⟩
  rcases hidle.fetch hsign hmark with ⟨s₂, hfetch, hgap, hqueue⟩
  rcases hhere hgap with ⟨s₃, t, hok, hqueue', hQ⟩
  refine ⟨front, s₃, t, left, ⟨s₁.queue, hsplit.symm⟩, ?_, hQ, hleft, ?_⟩
  · rw [hqueue', hqueue, hsplit, List.append_assoc]
  · rw [hrun, readOn, hfetch, hok]

/-- At the end, the end of the stream is queued and all is taken. -/
theorem runFrom_end (h : Idle [] flow s) {fuel : Nat} (hfuel : s.queue.length + 2 < fuel) :
    ∃ t, t.kind = .streamEnd ∧ runFrom fuel s = ⟨s.queue ++ [t], none⟩ := by
  rcases h.runFrom_queued List.not_mem_nil List.not_mem_nil (by omega : s.queue.length < fuel)
    fetchHere_end with ⟨front, s', t, left, -, hsplit, ⟨hfinished, hkind⟩, hleft, hrun⟩
  have hlength := congrArg List.length hsplit
  rw [List.length_append, List.length_append, List.length_singleton] at hlength
  refine ⟨t, hkind, ?_⟩
  rw [hrun, runFrom_finished hfinished (by omega), prepend, hsplit]

/-- Before a closing brace that ends the text, it is queued, and the run comes to its end. -/
theorem runFrom_close (h : Idle rest flow s) (hsign : '#' ∉ rest) (hmark : byteOrderMark ∉ rest)
    (hclose : rest.dropWhile isNarrow = ['\x7d']) {fuel : Nat} (hfuel : s.queue.length + 4 < fuel) :
    ∃ t u, t.kind = .flowMappingEnd ∧ u.kind = .streamEnd ∧
      runFrom fuel s = ⟨s.queue ++ [t, u], none⟩ := by
  rcases h.runFrom_queued hsign hmark (by omega : s.queue.length < fuel)
    (fun hgap => (hclose ▸ hgap).fetchHere_close) with
    ⟨front, s', t, left, -, hsplit, ⟨hidle, hkind⟩, hleft, hrun⟩
  have hlength := congrArg List.length hsplit
  rw [List.length_append, List.length_append, List.length_singleton] at hlength
  rcases hidle.runFrom_end (by omega : s'.queue.length + 2 < left) with ⟨u, hend, hlast⟩
  refine ⟨t, u, hkind, hend, ?_⟩
  rw [hrun, hlast, prepend, ← List.append_assoc, hsplit, List.append_assoc]
  rfl

/-- Before a tab a run takes some tokens from the queue, and stops. -/
theorem runFrom_tab (h : Idle rest flow s) (hsign : '#' ∉ rest) (hmark : byteOrderMark ∉ rest)
    {more : List Char} (htab : rest.dropWhile isNarrow = '\t' :: more) {fuel : Nat}
    (hfuel : s.queue.length < fuel) :
    ∃ front offset, front <+: s.queue ∧
      runFrom fuel s = ⟨front, some (.lex (.strayCharacter '\t') offset)⟩ := by
  rcases h.exists_readOn hfuel with ⟨front, s₁, left, hsplit, hidle, -, hrun⟩
  rcases hidle.fetch hsign hmark with ⟨s₂, hfetch, hgap, -⟩
  rw [htab] at hgap
  refine ⟨front, s₂.cursor.mark.index, ⟨s₁.queue, hsplit.symm⟩, ?_⟩
  rw [hrun, readOn, hfetch, hgap.fetchHere_tab]
  dsimp only
  rw [prepend, List.append_nil]

end Lexer.Idle

/-! ## Blanks between braces -/

namespace Lexer.Idle

open TokenStream

variable {rest ws : List Char} {flow : Int} {s : Lexer}

/-- A wide blank is read with all blanks up to the next tab or to the closing brace. -/
theorem fetchHere_blanks {a : Char} (h : Idle (a :: ws ++ ['\x7d']) flow s) (hflow : flow ≠ 0)
    (hblank : ∀ b ∈ a :: ws, Blank b) (hwide : isWide a = true) :
    ∃ s' t, s.fetchHere = .ok s' ∧ s'.queue = s.queue ++ [t] ∧
      Idle (ws.dropWhile (· != '\t') ++ ['\x7d']) flow s' ∧
      ∃ more, t.kind = .scalar (String.ofList (a :: more)) none := by
  rcases (hblank a List.mem_cons_self).of_isWide hwide with ⟨hgap, hfar⟩
  rcases h.saveKey with ⟨s', hsave, hidle, hqueue⟩
  have hinside : s'.inFlow = true := by
    rw [inFlow, hidle.level]
    exact bne_iff_ne.2 hflow
  rcases readPlain_blanks hblank hwide hidle.ahead s'.indent with ⟨hkind, hafter⟩
  rw [← hinside] at hkind hafter
  refine ⟨{ s'.push (readPlain s'.inFlow s'.indent s'.cursor).1 with
    keyAllowed := (readPlain s'.inFlow s'.indent s'.cursor).2.1
    cursor := (readPlain s'.inFlow s'.indent s'.cursor).2.2 }, _, ?_, ?_, ?_, hkind⟩
  · rw [h.fetchHere_wide hgap hfar, fetchPlain, hsave]
    rfl
  · rw [← hqueue]
    rfl
  · exact ⟨hafter, hidle.level, hidle.unfinished, hidle.indent, hidle.outer, hidle.keys⟩

/-- A run that comes to a wide blank goes on behind its plain scalar, which it has queued. -/
theorem runFrom_blanks {cs : List Char} {a : Char} (h : Idle (cs ++ ['\x7d']) flow s)
    (hflow : flow ≠ 0) (hblank : ∀ b ∈ cs, Blank b) (hdrop : cs.dropWhile isNarrow = a :: ws)
    (hwide : isWide a = true) {fuel : Nat} (hfuel : s.queue.length < fuel) :
    ∃ front s' t left, front <+: s.queue ∧ front ++ s'.queue = s.queue ++ [t] ∧
      (Idle (ws.dropWhile (· != '\t') ++ ['\x7d']) flow s' ∧
        ∃ more, t.kind = .scalar (String.ofList (a :: more)) none) ∧
      fuel = left + front.length + 1 ∧ runFrom fuel s = (runFrom left s').prepend front := by
  refine h.runFrom_queued (not_mem_braced hblank (by decide) (by decide))
    (not_mem_braced hblank (by decide) (by decide)) hfuel fun hgap => ?_
  rw [dropWhile_braced (by decide), hdrop] at hgap
  exact hgap.fetchHere_blanks hflow
    (fun b hb => hblank b (List.dropWhile_subset _ (hdrop ▸ hb))) hwide

/-- A run to a tab stops there, with at most one more token: a plain scalar. -/
theorem runFrom_of_tab (h : Idle (ws ++ ['\x7d']) flow s) (hflow : flow ≠ 0)
    (hblank : ∀ a ∈ ws, Blank a) (htab : '\t' ∈ ws) {fuel : Nat}
    (hfuel : s.queue.length + 2 < fuel) :
    ∃ front content offset,
      front.map Token.kind <+: s.queue.map Token.kind ++ [.scalar content none] ∧
      runFrom fuel s = ⟨front, some (.lex (.strayCharacter '\t') offset)⟩ := by
  rcases exists_dropWhile htab (by decide : isNarrow '\t' = false) with
    ⟨a, more, hdrop, hnarrow, hmem⟩
  have hmore : ∀ x ∈ a :: more, Blank x :=
    fun x hx => hblank x (List.dropWhile_subset _ (hdrop ▸ hx))
  by_cases hwide : isWide a = true
  · -- A plain scalar comes first, and the tab ends it.
    rcases h.runFrom_blanks hflow hblank hdrop hwide (by omega : s.queue.length < fuel) with
      ⟨front, s', t, left, -, hsplit, ⟨hidle, text, hkind⟩, hleft, hrun⟩
    have htab' : '\t' ∈ more := by
      rcases List.mem_cons.1 hmem with rfl | hmem
      · cases hwide
      · exact hmem
    rcases exists_dropWhile (p := (· != '\t')) htab' rfl with ⟨b, after, hafter, hb, -⟩
    have hblank' : ∀ x ∈ more.dropWhile (· != '\t'), Blank x :=
      fun x hx => hmore x (List.mem_cons_of_mem _ (List.dropWhile_subset _ hx))
    have hstop : (more.dropWhile (· != '\t') ++ ['\x7d']).dropWhile isNarrow =
        '\t' :: (after ++ ['\x7d']) := by
      rw [hafter, bne_eq_false_iff_eq.1 hb]
      rfl
    have hlength := congrArg List.length hsplit
    rw [List.length_append, List.length_append, List.length_singleton] at hlength
    rcases hidle.runFrom_tab (not_mem_braced hblank' (by decide) (by decide))
      (not_mem_braced hblank' (by decide) (by decide)) hstop
      (by omega : s'.queue.length < left) with
      ⟨front', offset, hfront, hrun'⟩
    refine ⟨front ++ front', String.ofList (a :: text), offset, ?_, ?_⟩
    · have hkinds := ((List.prefix_append_right_inj front).2 hfront).map Token.kind
      simpa only [hsplit, List.map_append, List.map_singleton, hkind] using hkinds
    · rw [hrun, hrun']
      rfl
  · -- The tab comes first.
    have hfirst := (hmore a List.mem_cons_self).eq_tab (Bool.eq_false_iff.2 hwide) hnarrow
    have hstop : (ws ++ ['\x7d']).dropWhile isNarrow = '\t' :: (more ++ ['\x7d']) := by
      rw [dropWhile_braced (by decide), hdrop, hfirst]
      rfl
    rcases h.runFrom_tab (not_mem_braced hblank (by decide) (by decide))
      (not_mem_braced hblank (by decide) (by decide)) hstop (by omega : s.queue.length < fuel) with
      ⟨front, offset, hfront, hrun⟩
    refine ⟨front, "", offset, ?_, hrun⟩
    exact (hfront.map Token.kind).trans (List.prefix_append _ _)

/-- A run over blanks without a tab, some of them wide, queues one plain scalar and the brace. -/
theorem runFrom_of_wide (h : Idle (ws ++ ['\x7d']) flow s) (hflow : flow ≠ 0)
    (hblank : ∀ a ∈ ws, Blank a) (htab : '\t' ∉ ws) {b : Char} (hb : b ∈ ws)
    (hnarrow : isNarrow b = false) {fuel : Nat} (hfuel : s.queue.length + 6 < fuel) :
    ∃ t u v a more, 0xa0 ≤ a.toNat ∧ runFrom fuel s = ⟨s.queue ++ [t, u, v], none⟩ ∧
      t.kind = .scalar (String.ofList (a :: more)) none ∧ u.kind = .flowMappingEnd ∧
      v.kind = .streamEnd := by
  rcases exists_dropWhile hb hnarrow with ⟨a, more, hdrop, ha, -⟩
  have hsub : ∀ x ∈ a :: more, x ∈ ws := fun x hx => List.dropWhile_subset _ (hdrop ▸ hx)
  have hfirst : Blank a := hblank a (hsub a List.mem_cons_self)
  have hwide : isWide a = true := by
    rw [← Bool.not_eq_false]
    intro hnot
    exact htab (hfirst.eq_tab hnot ha ▸ hsub a List.mem_cons_self)
  rcases h.runFrom_blanks hflow hblank hdrop hwide (by omega : s.queue.length < fuel) with
    ⟨front, s', t, left, -, hsplit, ⟨hidle, text, hkind⟩, hleft, hrun⟩
  -- Without a tab the scalar goes on to the brace.
  have hnone : more.dropWhile (· != '\t') = [] := by
    rw [← List.append_nil more, List.dropWhile_append_of_pos, List.dropWhile_nil]
    intro x hx
    rw [bne_iff_ne]
    rintro rfl
    exact htab (hsub _ (List.mem_cons_of_mem _ hx))
  rw [hnone, List.nil_append] at hidle
  have hlength := congrArg List.length hsplit
  rw [List.length_append, List.length_append, List.length_singleton] at hlength
  rcases hidle.runFrom_close (by decide) (by decide) rfl
    (by omega : s'.queue.length + 4 < left) with
    ⟨u, v, hend, hlast, hrun'⟩
  refine ⟨t, u, v, a, text, (hfirst.of_isWide hwide).2, ?_, hkind, hend, hlast⟩
  rw [hrun, hrun', prepend, ← List.append_assoc, hsplit, List.append_assoc]
  rfl

end Lexer.Idle

namespace TokenStream

open Lexer

variable {ws : List Char}

theorem permitted_braced (h : ∀ a ∈ ws, Blank a) : ∀ a ∈ '\x7b' :: ws ++ ['\x7d'], Permitted a := by
  intro a ha
  rcases List.mem_append.1 ha with ha | ha
  · rcases List.mem_cons.1 ha with rfl | ha
    · exact Or.inr (Or.inr (Or.inr (Or.inl (by decide))))
    · exact (h a ha).2
  · rw [List.mem_singleton.1 ha]
    exact Or.inr (Or.inr (Or.inr (Or.inl (by decide))))

/-- The opening brace is read, and the blanks and the closing brace are ahead. -/
theorem ofChars_open (h : ∀ a ∈ ws, Blank a) :
    ∃ s start t, ofChars ('\x7b' :: ws ++ ['\x7d']) =
        (runFrom (8 * ws.length + 30) s).prepend [start] ∧ Idle (ws ++ ['\x7d']) 1 s ∧
      start.kind = .streamStart ∧ t.kind = .flowMappingStart ∧ s.queue = [t] := by
  have hsteps : steps ('\x7b' :: ws ++ ['\x7d']) = 8 * ws.length + 31 + 1 := by
    rw [steps, List.cons_append, List.length_cons, List.length_append, List.length_singleton]
    omega
  have hstart : Idle ('\x7b' :: (ws ++ ['\x7d'])) 0
      { Lexer.ofText ('\x7b' :: ws ++ ['\x7d']) with queue := [], taken := 1 } := by
    refine ⟨rfl, rfl, rfl, rfl, rfl, ?_⟩
    intro k hk
    cases hk
  have hsign : ∀ a, Text.isBlank a = false → a ≠ '\x7d' → a ≠ '\x7b' →
      a ∉ '\x7b' :: (ws ++ ['\x7d']) := by
    intro a ha hclose hopen hmem
    rcases List.mem_cons.1 hmem with heq | hmem
    · exact hopen heq
    · exact not_mem_braced h ha hclose hmem
  rcases hstart.runFrom_queued (hsign '#' (by decide) (by decide) (by decide))
    (hsign byteOrderMark (by decide) (by decide) (by decide)) (Nat.succ_pos (8 * ws.length + 30))
    Idle.fetchHere_open with ⟨front, s, t, left, hfront, hsplit, ⟨hidle, hkind⟩, hleft, hrun⟩
  -- The first token is taken before anything is read, so the queue holds the brace alone.
  cases List.prefix_nil.1 hfront
  cases hleft
  refine ⟨s, ⟨.streamStart, (Cursor.ofText []).mark, (Cursor.ofText []).mark⟩, t, ?_, hidle, rfl,
    hkind, hsplit⟩
  rw [ofChars, forbiddenFrom_eq_none.2 (permitted_braced h)]
  dsimp only
  rw [hsteps, runFrom_ofText, hrun]
  rfl

/-- Spaces and line breaks between braces give no token. -/
theorem ofChars_narrow (h : ∀ a ∈ ws, Blank a) (hnarrow : ∀ a ∈ ws, isNarrow a = true) :
    (ofChars ('\x7b' :: ws ++ ['\x7d'])).halt = none ∧
      (ofChars ('\x7b' :: ws ++ ['\x7d'])).tokens.map Token.kind =
        [.streamStart, .flowMappingStart, .flowMappingEnd, .streamEnd] := by
  rcases ofChars_open h with ⟨s, start, t, hchars, hidle, hstart, hopen, hqueue⟩
  have hclose : (ws ++ ['\x7d']).dropWhile isNarrow = ['\x7d'] := by
    rw [List.dropWhile_append_of_pos hnarrow]
    rfl
  have hfuel : s.queue.length + 4 < 8 * ws.length + 30 := by
    rw [hqueue, List.length_singleton]
    omega
  rcases hidle.runFrom_close (not_mem_braced h (by decide) (by decide))
    (not_mem_braced h (by decide) (by decide)) hclose hfuel with ⟨u, v, hend, hlast, hrun⟩
  rw [hchars, hrun, hqueue]
  refine ⟨rfl, ?_⟩
  rw [← hstart, ← hopen, ← hend, ← hlast]
  rfl

/-- A tab between braces stops the reading, after the opening brace and at most one plain scalar. -/
theorem ofChars_tab (h : ∀ a ∈ ws, Blank a) (htab : '\t' ∈ ws) :
    ∃ content offset,
      (ofChars ('\x7b' :: ws ++ ['\x7d'])).halt = some (.lex (.strayCharacter '\t') offset) ∧
      (ofChars ('\x7b' :: ws ++ ['\x7d'])).tokens.map Token.kind <+:
        [.streamStart, .flowMappingStart, .scalar content none] := by
  rcases ofChars_open h with ⟨s, start, t, hchars, hidle, hstart, hopen, hqueue⟩
  have hfuel : s.queue.length + 2 < 8 * ws.length + 30 := by
    rw [hqueue, List.length_singleton]
    omega
  rcases hidle.runFrom_of_tab (by decide) h htab hfuel with ⟨front, content, offset, hfront, hrun⟩
  refine ⟨content, offset, ?_, ?_⟩
  · rw [hchars, hrun]
    rfl
  · rw [hqueue, List.map_singleton, hopen] at hfront
    rw [hchars, hrun, ← hstart]
    exact List.prefix_cons_inj _ |>.2 hfront

/-- Wide blanks between braces, and all that lies between them, are one plain scalar. -/
theorem ofChars_wide (h : ∀ a ∈ ws, Blank a) (htab : '\t' ∉ ws) {b : Char} (hb : b ∈ ws)
    (hnarrow : isNarrow b = false) :
    ∃ a more, 0xa0 ≤ a.toNat ∧ (ofChars ('\x7b' :: ws ++ ['\x7d'])).halt = none ∧
      (ofChars ('\x7b' :: ws ++ ['\x7d'])).tokens.map Token.kind =
        [.streamStart, .flowMappingStart, .scalar (String.ofList (a :: more)) none, .flowMappingEnd,
          .streamEnd] := by
  rcases ofChars_open h with ⟨s, start, t, hchars, hidle, hstart, hopen, hqueue⟩
  have hfuel : s.queue.length + 6 < 8 * ws.length + 30 := by
    rw [hqueue, List.length_singleton]
    omega
  rcases hidle.runFrom_of_wide (by decide) h htab hb hnarrow hfuel with
    ⟨u, v, w, a, more, hfar, hrun, hscalar, hend, hlast⟩
  refine ⟨a, more, hfar, ?_⟩
  rw [hchars, hrun, hqueue]
  refine ⟨rfl, ?_⟩
  rw [← hstart, ← hopen, ← hscalar, ← hend, ← hlast]
  rfl

end TokenStream

end Yaml
end YamlServer
