import YamlServer.Proofs.Yaml.TokenOrder

/-!
# Reading tokens comes to an end

The steps of a run are bounded beforehand. A run that used them up would break off in the middle of
the text without a word, so it has to be shown that none does: every step leaves less to do, counted
by the characters to read, the tokens to take and the blocks to close, and the bound is above what
there is to do at the start.

* `Lexer.nearer_fetch`: reading on comes nearer to the end.
* `TokenStream.complete_ofChars_iff`: these are the tokens that nothing stopped.
-/

namespace YamlServer
namespace Yaml

open Cursor

namespace Lexer

/-- What is left to do in a state. A character can bring up to four tokens with it: its own one, a
key in front of it, and the start and the end of a block. -/
def work (s : Lexer) : Nat :=
  5 * s.cursor.rest.length + s.queue.length + s.outer.length + if s.finished then 0 else 8

/-- `s'` is read as far as `s`, and has at most `n` more tokens to take and blocks to close. -/
structure Grows (n : Nat) (s s' : Lexer) : Prop where
  cursor : s'.cursor = s.cursor
  finished : s'.finished = s.finished
  size : s'.queue.length + s'.outer.length ≤ s.queue.length + s.outer.length + n

/-- `s'` has less to do than `s`, and if it is finished, the end of the stream is queued. -/
structure Nearer (s s' : Lexer) : Prop where
  work : s'.work < s.work
  ended : s'.finished = true → ∃ t ∈ s'.queue, t.kind = .streamEnd

namespace Grows

variable {n m : Nat} {s s' s'' : Lexer}

theorem refl (s : Lexer) : Grows 0 s s :=
  ⟨rfl, rfl, Nat.le_refl _⟩

theorem trans (h : Grows n s s') (h' : Grows m s' s'') : Grows (n + m) s s'' := by
  have hsize := h.size
  have hsize' := h'.size
  exact ⟨h'.cursor.trans h.cursor, h'.finished.trans h.finished, by omega⟩

theorem work_le (h : Grows 0 s s') : s'.work ≤ s.work := by
  have hsize := h.size
  rw [work, work, h.cursor, h.finished]
  omega

theorem weaken (h : Grows n s s') (hn : n ≤ m) : Grows m s s' :=
  ⟨h.cursor, h.finished, Nat.le_trans h.size (Nat.add_le_add_left hn _)⟩

end Grows

variable {s s' : Lexer}

/-! ## What is queued without reading -/

theorem grows_dropStale (h : s.dropStale = .ok s') : Grows 0 s s' := by
  rw [dropStale_eq h]
  exact ⟨rfl, rfl, Nat.le_refl _⟩

theorem grows_dropKey (h : s.dropKey = .ok s') : Grows 0 s s' := by
  rw [dropKey_eq h]
  exact ⟨rfl, rfl, Nat.le_refl _⟩

theorem grows_saveKey (h : s.saveKey = .ok s') : Grows 0 s s' := by
  rw [saveKey_eq h]
  exact ⟨rfl, rfl, Nat.le_refl _⟩

/-- Every block end that is queued closes a block. -/
theorem grows_unwind (column : Int) (s : Lexer) : Grows 0 s (s.unwind column) := by
  refine unwind_induction (P := Grows 0 s) column ?_ (Grows.refl s)
  intro s' indent rest houter h
  have hsize := h.size
  rw [houter, List.length_cons] at hsize
  refine ⟨h.cursor, h.finished, ?_⟩
  simp only [pushHere, push, List.length_append, List.length_singleton]
  omega

theorem grows_openOutsideFlow (kind : TokenKind) (s : Lexer) :
    Grows 2 s (if s.inFlow then s else s.openHere kind) := by
  rcases openOutsideFlow_cases kind s with heq | heq
  · rw [heq]
    exact (Grows.refl s).weaken (by decide)
  · rw [heq]
    refine ⟨rfl, rfl, ?_⟩
    simp only [pushHere, push, List.length_append, List.length_cons, List.length_nil]
    omega

/-- A key in a new block is the most that one character queues before its token: the start of the
block and the key, with the end of the block to come. -/
theorem grows_putKey (k : SimpleKey) (s : Lexer) : Grows 3 s (s.putKey k) := by
  rcases putKey_cases k s with ⟨opened, kinds, heq, ⟨rfl, rfl⟩ | ⟨rfl, rfl⟩⟩ <;>
  · rw [heq]
    refine ⟨rfl, rfl, ?_⟩
    simp only [Lexer.insertBefore, List.length_append, List.length_map, List.length_take,
      List.length_drop, List.length_cons, List.length_nil]
    omega

theorem grows_readies {kind : TokenKind} (h : Readies s kind s') : Grows 3 s s' := by
  cases h with
  | margin hdrop => exact ((grows_unwind (-1) s).trans (grows_dropKey hdrop)).weaken (by decide)
  | part _ hsave => exact (grows_saveKey hsave).weaken (by decide)
  | forget hdrop => exact (grows_dropKey hdrop).weaken (by decide)
  | entry _ hdrop =>
    exact ((grows_openOutsideFlow _ s).trans (grows_dropKey hdrop)).weaken (by decide)
  | value _ => exact grows_putKey _ s

/-! ## Reading one token -/

theorem nearer_fetchStreamEnd (hopen : s.finished = false) (h : s.fetchStreamEnd = .ok s') :
    Nearer s s' := by
  rcases Outcome.bind_eq_ok.1 h with ⟨dropped, hdrop, hrest⟩
  cases hrest
  have hgrows := (grows_unwind (-1) s).trans (grows_dropKey hdrop)
  have hsize := hgrows.size
  -- The end takes no character, but leaves the state finished.
  constructor
  · simp only [work, pushHere, push, List.length_append, List.length_singleton, hgrows.cursor,
      hopen, if_true, Bool.false_eq_true, if_false]
    omega
  · intro _
    exact ⟨_, List.mem_append_right _ List.mem_cons_self, rfl⟩

/-- A character counts five, and this is more than its token and what came before it. -/
theorem nearer_fetches (hopen : s.finished = false) (hrest : s.cursor.rest ≠ []) {t : Token}
    (h : Fetches s t s') : Nearer s s' := by
  cases h with
  | @read ready next flow keyAllowed hready hshows hflow =>
    have hgrows := grows_readies hready
    have hsize := hgrows.size
    have hfinished : ready.finished = false := hgrows.finished.trans hopen
    have hshorter := hshows.reads.moved.shorter hrest
    constructor
    · simp only [work, Lexer.push, List.length_append, List.length_singleton, hfinished, hopen]
      omega
    · intro hend
      exact absurd (hfinished.symm.trans hend) Bool.false_ne_true

theorem nearer_fetchHere (hopen : s.finished = false) (h : s.fetchHere = .ok s') : Nearer s s' := by
  rcases fetches_fetchHere h with ⟨-, hend⟩ | ⟨hrest, t, hfetches⟩
  · exact nearer_fetchStreamEnd hopen hend
  · exact nearer_fetches hopen hrest hfetches

theorem work_skipGap (s : Lexer) : s.skipGap.work ≤ s.work := by
  have hindex := (reaches_skipGap s).index_le
  have hend := (reaches_skipGap s).end_eq
  have hrest : s.skipGap.cursor.rest.length ≤ s.cursor.rest.length := by omega
  have hqueue : s.skipGap.queue = s.queue := rfl
  have houter : s.skipGap.outer = s.outer := rfl
  have hfinished : s.skipGap.finished = s.finished := rfl
  rw [work, work, hqueue, houter, hfinished]
  omega

theorem nearer_fetch (hopen : s.finished = false) (h : s.fetch = .ok s') : Nearer s s' := by
  rcases Outcome.bind_eq_ok.1 h with ⟨fresh, hfresh, hhere⟩
  have hgrows := (grows_dropStale hfresh).trans (grows_unwind (Int.ofNat fresh.mark.column) fresh)
  have hnearer := nearer_fetchHere (hgrows.finished.trans hopen) hhere
  refine ⟨?_, hnearer.ended⟩
  calc
    s'.work < (fresh.unwind (Int.ofNat fresh.mark.column)).work := hnearer.work
    _ ≤ s.skipGap.work := hgrows.work_le
    _ ≤ s.work := work_skipGap s

end Lexer

namespace TokenStream

open Lexer

/-- Taking the head of the queue leaves less to do. -/
theorem work_take {s : Lexer} {t : Token} {rest : List Token} (hqueue : s.queue = t :: rest) :
    ({ s with queue := rest, taken := s.taken + 1 } : Lexer).work < s.work := by
  simp only [work, hqueue, List.length_cons]
  omega

/-- A run with enough steps that nothing stops takes the end of the stream from the queue. -/
theorem exists_streamEnd_runFrom {s : Lexer} {fuel : Nat} (hfuel : s.work < fuel)
    (hended : s.finished = true → ∃ t ∈ s.queue, t.kind = .streamEnd)
    (hhalt : (runFrom fuel s).halt = none) :
    ∃ t ∈ (runFrom fuel s).tokens, t.kind = .streamEnd := by
  -- On the steps, of which there are always more than there is work.
  induction fuel generalizing s with
  | zero => exact absurd hfuel (Nat.not_lt_zero _)
  | succ fuel ih =>
    -- The token taken is the end of the stream, or leaves it in the queue.
    have htake : ∀ (s' : Lexer) (t : Token) (rest : List Token), s'.work ≤ s.work →
        s'.queue = t :: rest →
        (s'.finished = true → ∃ u ∈ t :: rest, u.kind = .streamEnd) →
        (runFrom fuel { s' with queue := rest, taken := s'.taken + 1 }).halt = none →
        ∃ u ∈ ((runFrom fuel { s' with queue := rest, taken := s'.taken + 1 }).cons t).tokens,
          u.kind = .streamEnd := by
      intro s' t rest hwork hqueue hended' hstop
      by_cases hkind : t.kind = .streamEnd
      · exact ⟨t, List.mem_cons_self, hkind⟩
      · have hless := work_take hqueue
        have hrest : s'.finished = true → ∃ u ∈ rest, u.kind = .streamEnd := by
          intro hfinished
          rcases hended' hfinished with ⟨u, hu, hend⟩
          rcases List.mem_cons.1 hu with rfl | hu
          · exact absurd hend hkind
          · exact ⟨u, hu, hend⟩
        rcases ih (by omega) hrest hstop with ⟨u, hu, hend⟩
        exact ⟨u, List.mem_cons_of_mem _ hu, hend⟩
    rw [runFrom_succ] at hhalt ⊢
    generalize hmove : move s = next at hhalt ⊢
    have hmoves : Moves s next := hmove ▸ moves_move s
    cases hmoves with
    | finish hqueue hfinished =>
      rcases hended hfinished with ⟨t, ht, -⟩
      rw [hqueue] at ht
      cases ht
    | stop hopen hdrop => cases hhalt
    | @read fresh hopen hfresh =>
      have hgrows : Grows 0 s fresh := by
        rcases hfresh with rfl | hdrop
        · exact Grows.refl _
        · exact grows_dropStale hdrop
      -- Reading on is stopped, or goes on with less to do.
      rw [follow, readOn] at hhalt ⊢
      cases hfetch : fresh.fetch with
      | error halt =>
        rw [hfetch] at hhalt
        cases hhalt
      | ok next =>
        rw [hfetch] at hhalt
        have hnearer := nearer_fetch (hgrows.finished.trans hopen) hfetch
        have hless := hnearer.work
        have hle := hgrows.work_le
        exact ih (by omega) hnearer.ended hhalt
    | takeLast hfinished hqueue =>
      exact htake s _ _ (Nat.le_refl _) hqueue (fun h => hqueue ▸ hended h) hhalt
    | @take fresh t rest hopen hdrop hdecided hqueue =>
      have hgrows := grows_dropStale hdrop
      refine htake fresh t rest hgrows.work_le hqueue ?_ hhalt
      intro hfinished
      exact absurd ((hgrows.finished.trans hopen).symm.trans hfinished) Bool.false_ne_true

/-- The first token only marks the start of the stream. -/
theorem runFrom_ofText (fuel : Nat) (cs : List Char) :
    runFrom (fuel + 1) (Lexer.ofText cs) =
      (runFrom fuel { Lexer.ofText cs with queue := [], taken := 1 }).cons
        ⟨.streamStart, (Cursor.ofText cs).mark, (Cursor.ofText cs).mark⟩ :=
  rfl

/-- The text was read to its end. -/
def Complete (s : TokenStream) : Prop :=
  ∃ t ∈ s.tokens, t.kind = .streamEnd

/-- Tokens of a text that nothing stopped hold the end of the stream, after their first. -/
theorem exists_streamEnd_ofChars {cs : List Char} (h : (ofChars cs).halt = none) :
    ∃ t ∈ (ofChars cs).tokens.drop 1, t.kind = .streamEnd := by
  unfold ofChars at h ⊢
  split at h
  · cases h
  · have hsteps : steps cs = 8 * cs.length + 15 + 1 := rfl
    rw [hsteps, runFrom_ofText] at h ⊢
    refine exists_streamEnd_runFrom ?_ (fun hend => absurd hend Bool.false_ne_true) h
    have hwork : ({ Lexer.ofText cs with queue := [], taken := 1 } : Lexer).work =
        5 * cs.length + 8 := rfl
    omega

/-- A text is read to its end if nothing stops the reading. -/
theorem complete_ofChars_iff (cs : List Char) :
    (ofChars cs).Complete ↔ (ofChars cs).halt = none := by
  constructor
  · rintro ⟨t, ht, hkind⟩
    exact halt_ofChars_of_streamEnd ht hkind
  · intro hhalt
    rcases exists_streamEnd_ofChars hhalt with ⟨t, ht, hkind⟩
    exact ⟨t, List.mem_of_mem_drop ht, hkind⟩

end TokenStream
end Yaml
end YamlServer
