import YamlServer.Proofs.Yaml.TokenOrder

/-!
# What stops the reading of tokens

Between two tokens reading stops as a reader does, or by a lexical fault of its own: a key without
its colon, a misplaced indicator or a character that starts no token.

* `TokenStream.inOrder_of_fault`: the fault of a text stands behind its tokens.
-/

namespace YamlServer
namespace Yaml

open Cursor Outcome

variable {text : List Char}

/-! ## Reading on -/

namespace Lexer

theorem halts_dropStale (s : Lexer) : Halts text s.cursor s.dropStale :=
  FailsWith.ite (halts_lex _ (Reaches.refl _)) (FailsWith.ok _)

theorem halts_dropKey (s : Lexer) : Halts text s.cursor s.dropKey := by
  unfold dropKey
  split
  · exact FailsWith.ite (halts_lex _ (Reaches.refl _)) (FailsWith.ok _)
  · exact FailsWith.ok _

theorem halts_saveKey (s : Lexer) : Halts text s.cursor s.saveKey := by
  refine FailsWith.ite ?_ (FailsWith.ok _)
  refine FailsWith.bind (halts_dropKey s) ?_
  rintro dropped -
  exact FailsWith.ok _

theorem halts_requireFresh (part : BlockPart) (s : Lexer) :
    Halts text s.cursor (s.requireFresh part) :=
  FailsWith.ite (FailsWith.ok _) (halts_lex _ (Reaches.refl _))

/-- A step that only has a key to forget before it is done. -/
theorem halts_dropKey_bind {α : Type} {s s' : Lexer} (h : s'.cursor = s.cursor) (f : Lexer → α) :
    Halts text s.cursor (s'.dropKey >>= fun dropped => pure (f dropped)) := by
  rw [← h]
  refine FailsWith.bind (halts_dropKey s') ?_
  rintro dropped -
  exact FailsWith.ok _

@[simp]
theorem openHere_cursor (kind : TokenKind) (s : Lexer) : (s.openHere kind).cursor = s.cursor := by
  unfold openHere openBlock?
  split
  · rename_i opened hopened
    split at hopened
    · cases hopened
      rfl
    · cases hopened
  · rfl

/-- A step that needs a place where a key may start, opens a block there if there is none, and has a
key to forget. -/
theorem halts_requireFresh_bind {α : Type} (part : BlockPart) (kind : TokenKind) (s : Lexer)
    (keyAllowed : Lexer → Bool) (f : Lexer → α) : Halts text s.cursor (do
      let fresh ← s.requireFresh part
      let opened := if fresh.inFlow then fresh else fresh.openHere kind
      let dropped ← { opened with keyAllowed := keyAllowed opened }.dropKey
      pure (f dropped)) := by
  refine FailsWith.bind (halts_requireFresh part s) ?_
  rintro fresh hfresh
  rw [← requireFresh_eq hfresh]
  refine halts_dropKey_bind ?_ f
  show (if fresh.inFlow then fresh else fresh.openHere kind).cursor = fresh.cursor
  split
  · rfl
  · exact openHere_cursor kind fresh

theorem halts_fetchBlockEntry (s : Lexer) : Halts text s.cursor s.fetchBlockEntry :=
  halts_requireFresh_bind _ _ s (fun _ => true) _

theorem halts_fetchKey (s : Lexer) : Halts text s.cursor s.fetchKey :=
  halts_requireFresh_bind _ _ s (fun opened => !opened.inFlow) _

theorem halts_fetchValue (s : Lexer) : Halts text s.cursor s.fetchValue := by
  unfold fetchValue
  split
  · exact FailsWith.ok _
  · exact halts_requireFresh_bind _ _ s (fun opened => !opened.inFlow) _

theorem halts_fetchFlowStart (kind : TokenKind) (s : Lexer) :
    Halts text s.cursor (s.fetchFlowStart kind) := by
  refine FailsWith.bind (halts_saveKey s) ?_
  rintro saved -
  exact FailsWith.ok _

theorem halts_fetchPlain (s : Lexer) : Halts text s.cursor s.fetchPlain := by
  refine FailsWith.bind (halts_saveKey s) ?_
  rintro saved -
  exact FailsWith.ok _

theorem cursor_dropKey {s s' : Lexer} (h : s.dropKey = .ok s') : s'.cursor = s.cursor := by
  rw [dropKey_eq h]

theorem cursor_saveKey {s s' : Lexer} (h : s.saveKey = .ok s') : s'.cursor = s.cursor := by
  rw [saveKey_eq h]

theorem halts_fetchBlockScalar (folded : Bool) (s : Lexer) :
    Halts text s.cursor (s.fetchBlockScalar folded) := by
  refine FailsWith.bind (halts_dropKey { s with keyAllowed := true }) ?_
  rintro dropped hdrop
  rw [cursor_dropKey hdrop]
  refine FailsWith.bind (runs_readBlock text _ _ _).halts ?_
  rintro ⟨token, next⟩ -
  exact FailsWith.ok _

namespace Steady

variable {lo : Nat} {s : Lexer}

/-- The characters to come are the last ones of the text. -/
theorem suffix (h : Steady lo text s) : s.cursor.rest <:+ text :=
  h.reached.suffix

theorem halts_fetchDirective (h : Steady lo text s) : Halts text s.cursor s.fetchDirective := by
  have hunwound := unwind_cursor (-1) s
  refine FailsWith.bind ?_ ?_
  · rw [← hunwound]
    exact halts_dropKey _
  · rintro dropped hdrop
    have hcursor := (cursor_dropKey hdrop).trans hunwound
    rw [hcursor]
    refine FailsWith.bind (runs_readDirective text h.suffix).halts ?_
    rintro ⟨token, next⟩ -
    exact FailsWith.ok _

theorem halts_fetchNodePart (h : Steady lo text s)
    {read : Cursor → Except Halt (Token × Cursor)}
    (hread : ∀ {c : Cursor}, c.rest <:+ text → Halts text c (read c)) :
    Halts text s.cursor (s.fetchNodePart read) := by
  refine FailsWith.bind (halts_saveKey s) ?_
  rintro saved hsave
  -- Noting a key leaves the cursor where it is.
  rw [cursor_saveKey hsave]
  refine FailsWith.bind (hread h.suffix) ?_
  rintro ⟨token, next⟩ -
  exact FailsWith.ok _

theorem halts_fetchHere (h : Steady lo text s) : Halts text s.cursor s.fetchHere := by
  rcases fetchHere_cases s with ⟨-, heq⟩ | ⟨-, htakes⟩
  · rw [heq]
    exact halts_dropKey_bind (unwind_cursor _ s) _
  · generalize s.fetchHere = outcome at htakes
    cases htakes with
    | directive => exact h.halts_fetchDirective
    | documentMark hkind => exact halts_dropKey_bind (unwind_cursor _ s) _
    | flowStart hkind => exact halts_fetchFlowStart _ s
    | flowEnd hkind => exact halts_dropKey_bind rfl _
    | flowEntry => exact halts_dropKey_bind rfl _
    | blockEntry => exact halts_fetchBlockEntry s
    | key => exact halts_fetchKey s
    | value => exact halts_fetchValue s
    | anchor isAlias => exact h.halts_fetchNodePart fun _ => (runs_readAnchor text isAlias _).halts
    | tag => exact h.halts_fetchNodePart fun _ => (runs_readTag text _).halts
    | blockScalar folded => exact halts_fetchBlockScalar folded s
    | quoted double => exact h.halts_fetchNodePart fun hc => (runs_readQuoted text double hc).halts
    | plain hplain => exact halts_fetchPlain s
    | stray a index hindex =>
      rw [hindex]
      exact halts_lex _ (Reaches.refl _)

/-- Reading on stops in a way the text can have. -/
theorem halts_fetch (h : Steady lo text s) : Halts text s.cursor s.fetch := by
  have hgap := reaches_skipGap s
  refine FailsWith.bind (hgap.halts (halts_dropStale _)) ?_
  rintro fresh hfresh
  have hcursor : fresh.cursor = s.skipGap.cursor := by rw [dropStale_eq hfresh]
  have hsteady := (h.skipGap.dropStale hfresh).unwind (Int.ofNat fresh.mark.column)
  have hstops := hsteady.halts_fetchHere
  rw [unwind_cursor, hcursor] at hstops
  exact hgap.halts hstops

end Steady
end Lexer

/-! ## The stream -/

namespace TokenStream

open Lexer

/-- A run from a steady state stops in a way the text can have, and at a place behind its tokens. -/
theorem arises_runFrom {lo : Nat} {s : Lexer} (fuel : Nat) (h : Steady lo text s) {halt : Halt}
    (hhalt : (runFrom fuel s).halt = some halt) : ∃ c, halt.ArisesFrom text c ∧
      (Cursor.ofText text).Reaches c ∧
      InOrder Token.extent lo c.mark.index (runFrom fuel s).tokens := by
  -- On the steps: only forgetting stale keys and reading on can stop a run.
  induction fuel generalizing lo s with
  | zero => cases hhalt
  | succ fuel ih =>
    rcases runFrom_cases fuel h with
      hrun | ⟨s', halt', hrun, hs', -, hstop⟩ | ⟨next, hrun, hnext⟩ |
        ⟨t, next, hrun, hlo, hwidth, hnext, -⟩
    · rw [hrun] at hhalt
      cases hhalt
    · rw [hrun] at hhalt ⊢
      cases hhalt
      have harises : halt.ArisesFrom text s'.cursor := by
        rcases hstop with hstop | hstop
        · exact halts_dropStale s' halt hstop
        · exact hs'.halts_fetch halt hstop
      exact ⟨s'.cursor, harises, hs'.reached, inOrder_nil.2 hs'.tokens.le⟩
    · rw [hrun] at hhalt ⊢
      exact ih hnext hhalt
    · rw [hrun] at hhalt ⊢
      rcases ih hnext hhalt with ⟨c, harises, hreached, htokens⟩
      exact ⟨c, harises, hreached, inOrder_cons.2 ⟨hlo, hwidth, htokens⟩⟩

/-! ## Forbidden characters -/

/-- A character that a text may hold. -/
def Permitted (c : Char) : Prop :=
  c = '\t' ∨ c = '\n' ∨ c = '\r' ∨ (0x20 ≤ c.toNat ∧ c.toNat ≤ 0x7e) ∨ c.toNat = 0x85 ∨
    (0xa0 ≤ c.toNat ∧ c.toNat ≤ 0xfffd) ∨ 0x10000 ≤ c.toNat

theorem forbiddenFrom_cons (index : Nat) (c : Char) (rest : List Char) :
    Permitted c ∧ forbiddenFrom index (c :: rest) = forbiddenFrom (index + 1) rest ∨
      ¬ Permitted c ∧ forbiddenFrom index (c :: rest) = some (c, index) := by
  rw [forbiddenFrom]
  split
  · rename_i hpermitted
    refine Or.inl ⟨?_, rfl⟩
    simpa [Permitted, or_assoc] using hpermitted
  · rename_i hforbidden
    refine Or.inr ⟨fun hpermitted => hforbidden ?_, rfl⟩
    simpa [Permitted, or_assoc] using hpermitted

@[simp]
theorem forbiddenFrom_eq_none {index : Nat} {cs : List Char} :
    forbiddenFrom index cs = none ↔ ∀ c ∈ cs, Permitted c := by
  induction cs generalizing index with
  | nil => simp [forbiddenFrom]
  | cons c rest ih =>
    rw [List.forall_mem_cons]
    rcases forbiddenFrom_cons index c rest with ⟨hc, hrest⟩ | ⟨hc, hfound⟩
    · rw [hrest, ih]
      exact (and_iff_right hc).symm
    · rw [hfound]
      exact iff_of_false (Option.some_ne_none _) fun h => hc h.1

/-- A text with a forbidden character has no tokens and reports it. -/
theorem halt_ofChars_forbidden {cs : List Char} (h : ¬ ∀ c ∈ cs, Permitted c) :
    ∃ c index, (ofChars cs).halt = some (.fault ⟨.character c, index⟩) := by
  unfold ofChars
  split
  · exact ⟨_, _, rfl⟩
  · rename_i hnone
    exact absurd (forbiddenFrom_eq_none.1 hnone) h

/-- What stops the reading of a text without forbidden characters. -/
theorem arises_ofChars {cs : List Char} (h : ∀ c ∈ cs, Permitted c) {halt : Halt}
    (hhalt : (ofChars cs).halt = some halt) : halt.Arises cs := by
  rw [ofChars, forbiddenFrom_eq_none.2 h] at hhalt
  rcases arises_runFrom _ (Steady.ofText cs) hhalt with ⟨c, harises, -⟩
  exact harises.arises

theorem forbiddenFrom_lt {index i : Nat} {c : Char} {cs : List Char}
    (h : forbiddenFrom index cs = some (c, i)) : i < index + cs.length := by
  induction cs generalizing index with
  | nil => cases h
  | cons a rest ih =>
    rw [List.length_cons]
    rcases forbiddenFrom_cons index a rest with ⟨-, hrest⟩ | ⟨-, hfound⟩
    · rw [hrest] at h
      have hlt := ih h
      omega
    · rw [hfound] at h
      cases h
      omega

/-- The fault by which the tokens of a text stop is about a place of the text behind all of them. -/
theorem inOrder_of_fault {cs : List Char} {f : Fault} (h : (ofChars cs).halt = some (.fault f)) :
    f.offset ≤ cs.length ∧ InOrder Token.extent 0 f.offset (ofChars cs).tokens := by
  unfold ofChars at h ⊢
  split at h
  · rename_i c index hforbidden
    cases h
    have hlt := forbiddenFrom_lt hforbidden
    exact ⟨by simpa using Nat.le_of_lt hlt, inOrder_nil.2 (Nat.zero_le _)⟩
  · rcases arises_runFrom _ (Steady.ofText cs) h with ⟨c, harises, hreached, htokens⟩
    generalize hhalt : Halt.fault f = halt at harises
    cases harises with
    | lex p hc =>
      cases hhalt
      have hend := (hreached.trans hc).end_eq
      rw [Cursor.ofText] at hend
      exact ⟨by dsimp only at hend ⊢; omega, htokens.mono (Nat.le_refl 0) hc.index_le⟩
    | codePoint hlarge => cases hhalt
    | longNumeral hlong => cases hhalt

end TokenStream

end Yaml
end YamlServer
