import YamlServer.Proofs.Yaml.Readers
import YamlServer.Yaml.Token.Stream

/-!
# What reading one token does

Whatever the token at the cursor is, it is read in two moves. First the state gets ready for it:
blocks are closed or opened, and the possible key of the current flow level is forgotten, noted or
put in place. Then the token is queued, and reading goes on behind it.

* `Lexer.Fetches`: both together, which by `Lexer.fetches_fetchHere` is all that reading one token
  can do.
-/

namespace YamlServer
namespace Yaml

open Cursor

/-- Tokens that may become a key: those with a text, and the starts of flow collections. -/
def TokenKind.isPart (k : TokenKind) : Bool :=
  k.isText || k == .flowSequenceStart || k == .flowMappingStart

theorem TokenKind.isPart_of_isText {k : TokenKind} (h : k.isText = true) : k.isPart = true := by
  rw [TokenKind.isPart, h]
  rfl

namespace Lexer

variable {s s' : Lexer}

/-! ## What each move leaves as it is -/

theorem dropStale_eq (h : s.dropStale = .ok s') :
    s' = { s with keys := s.keys.filter fun k => !s.isStale k.2 } := by
  unfold Lexer.dropStale at h
  split at h
  · cases h
  · cases h
    rfl

theorem dropKey_eq (h : s.dropKey = .ok s') : s' = { s with keys := s'.keys } := by
  unfold Lexer.dropKey at h
  split at h
  · split at h
    · cases h
    · cases h
      rfl
  · cases h
    rfl

theorem saveKey_eq (h : s.saveKey = .ok s') : s' = { s with keys := s'.keys } := by
  unfold Lexer.saveKey at h
  split at h
  · rcases Outcome.bind_eq_ok.1 h with ⟨dropped, hdrop, hrest⟩
    cases hrest
    rw [dropKey_eq hdrop]
  · cases h
    rfl

/-- Whether a key may start does not matter for forgetting one. -/
theorem dropKey_allow {keyAllowed : Bool}
    (h : { s with keyAllowed := keyAllowed }.dropKey = .ok s') :
    ∃ dropped, s.dropKey = .ok dropped ∧ s' = { dropped with keyAllowed := keyAllowed } := by
  have hkey : { s with keyAllowed := keyAllowed }.key? = s.key? := rfl
  unfold Lexer.dropKey at h ⊢
  rw [hkey] at h
  cases hk : s.key? with
  | none =>
    rw [hk] at h
    cases h
    exact ⟨s, rfl, rfl⟩
  | some k =>
    rw [hk] at h
    dsimp only at h ⊢
    split at h
    · cases h
    · rename_i hrequired
      cases h
      exact ⟨_, if_neg hrequired, rfl⟩

theorem requireFresh_eq {part : BlockPart} (h : s.requireFresh part = .ok s') : s' = s := by
  unfold Lexer.requireFresh at h
  split at h
  · cases h
    rfl
  · cases h

/-- What a block end keeps, closing blocks keeps. -/
theorem unwind_induction {P : Lexer → Prop} (column : Int)
    (hstep : ∀ s indent rest, s.outer = indent :: rest → P s →
      P { s.pushHere .blockEnd with indent := indent, outer := rest }) (h : P s) :
    P (s.unwind column) := by
  have hfrom : ∀ (outer : List Int) (s : Lexer), s.outer = outer → P s →
      P (s.unwindFrom column outer) := by
    -- On the open blocks, each of which a block end closes.
    intro outer
    induction outer with
    | nil => exact fun s _ h => h
    | cons indent rest ih =>
      intro s houter h
      rw [Lexer.unwindFrom]
      split
      · exact ih _ rfl (hstep s indent rest houter h)
      · exact h
  unfold Lexer.unwind
  split
  · exact h
  · exact hfrom s.outer s rfl h

theorem unwind_eq (column : Int) (s : Lexer) :
    (s.unwind column).cursor = s.cursor ∧ (s.unwind column).finished = s.finished ∧
      (s.unwind column).flow = s.flow :=
  unwind_induction (P := fun s' => s'.cursor = s.cursor ∧ s'.finished = s.finished ∧
    s'.flow = s.flow) column (fun _ _ _ _ h => h) ⟨rfl, rfl, rfl⟩

@[simp]
theorem unwind_cursor (column : Int) (s : Lexer) : (s.unwind column).cursor = s.cursor :=
  (unwind_eq column s).1

@[simp]
theorem unwind_finished (column : Int) (s : Lexer) : (s.unwind column).finished = s.finished :=
  (unwind_eq column s).2.1

@[simp]
theorem unwind_flow (column : Int) (s : Lexer) : (s.unwind column).flow = s.flow :=
  (unwind_eq column s).2.2

theorem openBlock?_eq {column : Nat} (h : s.openBlock? column = some s') :
    s' = { s with indent := Int.ofNat column, outer := s.indent :: s.outer } := by
  unfold Lexer.openBlock? at h
  split at h
  · cases h
    rfl
  · cases h

/-! ## The first character -/

/-- The ways to read a token that starts with the character at the cursor. -/
inductive Takes (s : Lexer) : Except Halt Lexer → Prop where
  | directive : (s.cursor.peek == '%' && s.cursor.mark.column == 0) = true →
      Takes s s.fetchDirective
  | documentMark {kind : TokenKind} {a : Char} : kind ≠ .streamEnd →
      kind = .documentStart ∧ a = '-' ∨ kind = .documentEnd ∧ a = '.' →
      s.cursor.atSeparator a = true → Takes s (s.fetchDocumentMark kind)
  | flowStart {kind : TokenKind} : kind ≠ .streamEnd →
      kind = .flowSequenceStart ∨ kind = .flowMappingStart → Takes s (s.fetchFlowStart kind)
  | flowEnd {kind : TokenKind} : kind ≠ .streamEnd →
      kind = .flowSequenceEnd ∨ kind = .flowMappingEnd → Takes s (s.fetchFlowEnd kind)
  | flowEntry : Takes s s.fetchFlowEntry
  | blockEntry : Takes s s.fetchBlockEntry
  | key : Takes s s.fetchKey
  | value : Takes s s.fetchValue
  | anchor (isAlias : Bool) : Takes s (s.fetchNodePart (readAnchor isAlias))
  | tag : Takes s (s.fetchNodePart readTag)
  | blockScalar (folded : Bool) :
      ((s.cursor.peek == '|' || s.cursor.peek == '>') && !s.inFlow) = true →
      Takes s (s.fetchBlockScalar folded)
  | quoted (double : Bool) : Takes s (s.fetchNodePart (readQuoted double))
  | plain : startsPlain s.inFlow s.cursor = true → Takes s s.fetchPlain
  | stray (a : Char) (index : Nat) : index = s.cursor.mark.index →
      Takes s (.error (.lex (.strayCharacter a) index))

theorem Takes.ite {c : Prop} [Decidable c] {x y : Except Halt Lexer} (hx : c → Takes s x)
    (hy : ¬ c → Takes s y) : Takes s (if c then x else y) := by
  split
  · rename_i hc
    exact hx hc
  · rename_i hc
    exact hy hc

/-- The stream ends at the end of the text, and elsewhere a character is there to be taken. -/
theorem fetchHere_cases (s : Lexer) :
    s.cursor.peek = endChar ∧ s.fetchHere = s.fetchStreamEnd ∨
      s.cursor.rest ≠ [] ∧ Takes s s.fetchHere := by
  by_cases hend : (s.cursor.peek == endChar) = true
  · exact Or.inl ⟨beq_iff_eq.1 hend, if_pos hend⟩
  · refine Or.inr ⟨?_, ?_⟩
    · intro hnil
      have hpeek : s.cursor.peek = endChar := by rw [peek, hnil]; rfl
      exact hend (beq_iff_eq.2 hpeek)
    · unfold Lexer.fetchHere
      -- One line for each way a token can start, in the order in which they are tried.
      refine Takes.ite (fun h => absurd h hend) fun _ => ?_
      refine Takes.ite .directive fun _ => ?_
      refine Takes.ite (fun h => .documentMark TokenKind.noConfusion (Or.inl ⟨rfl, rfl⟩)
        (Bool.and_eq_true_iff.1 h).2) fun _ => ?_
      refine Takes.ite (fun h => .documentMark TokenKind.noConfusion (Or.inr ⟨rfl, rfl⟩)
        (Bool.and_eq_true_iff.1 h).2) fun _ => ?_
      refine Takes.ite (fun _ => .flowStart TokenKind.noConfusion (Or.inl rfl)) fun _ => ?_
      refine Takes.ite (fun _ => .flowStart TokenKind.noConfusion (Or.inr rfl)) fun _ => ?_
      refine Takes.ite (fun _ => .flowEnd TokenKind.noConfusion (Or.inl rfl)) fun _ => ?_
      refine Takes.ite (fun _ => .flowEnd TokenKind.noConfusion (Or.inr rfl)) fun _ => ?_
      refine Takes.ite (fun _ => .flowEntry) fun _ => ?_
      refine Takes.ite (fun _ => .blockEntry) fun _ => ?_
      refine Takes.ite (fun _ => .key) fun _ => ?_
      refine Takes.ite (fun _ => .value) fun _ => ?_
      refine Takes.ite (fun _ => .anchor true) fun _ => ?_
      refine Takes.ite (fun _ => .anchor false) fun _ => ?_
      refine Takes.ite (fun _ => .tag) fun _ => ?_
      refine Takes.ite (fun h => .blockScalar false ?_) fun _ => ?_
      · rw [(Bool.and_eq_true_iff.1 h).1]
        exact (Bool.and_eq_true_iff.1 h).2
      refine Takes.ite (fun h => .blockScalar true ?_) fun _ => ?_
      · rw [(Bool.and_eq_true_iff.1 h).1, Bool.or_true]
        exact (Bool.and_eq_true_iff.1 h).2
      refine Takes.ite (fun _ => .quoted false) fun _ => ?_
      refine Takes.ite (fun _ => .quoted true) fun _ => ?_
      exact Takes.ite .plain fun _ => .stray _ _ rfl

theorem fetchHere_directive (h : (s.cursor.peek == '%' && s.cursor.mark.column == 0) = true) :
    s.fetchHere = s.fetchDirective := by
  rcases Bool.and_eq_true_iff.1 h with ⟨hpeek, hcolumn⟩
  have hend : ('%' == endChar) = false := by decide
  simp [Lexer.fetchHere, beq_iff_eq.1 hpeek, beq_iff_eq.1 hcolumn, hend]

theorem fetchHere_blockScalar
    (h : ((s.cursor.peek == '|' || s.cursor.peek == '>') && !s.inFlow) = true) :
    ∃ folded, s.fetchHere = s.fetchBlockScalar folded := by
  rcases Bool.and_eq_true_iff.1 h with ⟨hpeek, hflow⟩
  have hblock : s.inFlow = false := by simpa using hflow
  rcases Bool.or_eq_true_iff.1 hpeek with hpeek | hpeek
  · have hend : ('|' == endChar) = false := by decide
    refine ⟨false, ?_⟩
    simp [Lexer.fetchHere, Cursor.atSeparator, beq_iff_eq.1 hpeek, hblock, hend]
  · have hend : ('>' == endChar) = false := by decide
    refine ⟨true, ?_⟩
    simp [Lexer.fetchHere, Cursor.atSeparator, beq_iff_eq.1 hpeek, hblock, hend]

/-! ## Getting ready -/

/-- Put the key `k` in place, and in front of it the start of a block mapping where one starts. -/
def putKey (k : SimpleKey) (s : Lexer) : Lexer :=
  let s := { s with keys := s.keys.filter fun k => k.1 != s.flow }
  if s.inFlow then s.insertBefore k [.key]
  else
    match s.openBlock? k.mark.column with
    | some opened => opened.insertBefore k [.blockMappingStart, .key]
    | none => s.insertBefore k [.key]

theorem fetchValueOf_eq (k : SimpleKey) (s : Lexer) :
    s.fetchValueOf k = { s.putKey k with keyAllowed := false }.pushIndicator .value 1 :=
  rfl

/-- What is put in place, and into which state. -/
theorem putKey_cases (k : SimpleKey) (s : Lexer) :
    ∃ opened kinds, s.putKey k = opened.insertBefore k kinds ∧
      (opened = { s with keys := s.keys.filter fun k => k.1 != s.flow } ∧ kinds = [.key] ∨
        opened = { s with
          keys := s.keys.filter fun k => k.1 != s.flow
          indent := Int.ofNat k.mark.column
          outer := s.indent :: s.outer } ∧ kinds = [.blockMappingStart, .key]) := by
  unfold putKey
  dsimp only
  split
  · exact ⟨_, _, rfl, Or.inl ⟨rfl, rfl⟩⟩
  · split
    · rename_i opened hopen
      exact ⟨_, _, rfl, Or.inr ⟨openBlock?_eq hopen, rfl⟩⟩
    · exact ⟨_, _, rfl, Or.inl ⟨rfl, rfl⟩⟩

/-- The state gets ready for a token of a kind. Nothing is read. -/
inductive Readies (s : Lexer) (kind : TokenKind) : Lexer → Prop where
  /-- At the margin all blocks are closed. -/
  | margin {ready : Lexer} : (s.unwind (-1)).dropKey = .ok ready → Readies s kind ready
  /-- A part of a node may be a key. -/
  | part {ready : Lexer} : kind.isPart = true → s.saveKey = .ok ready → Readies s kind ready
  | forget {ready : Lexer} : s.dropKey = .ok ready → Readies s kind ready
  /-- Outside flow collections an entry may open a block. -/
  | entry {start : TokenKind} {ready : Lexer} :
      start = .blockSequenceStart ∨ start = .blockMappingStart →
      (if s.inFlow then s else s.openHere start).dropKey = .ok ready → Readies s kind ready
  | value {k : SimpleKey} : s.key? = some k → Readies s kind (s.putKey k)

theorem openOutsideFlow_cases (kind : TokenKind) (s : Lexer) :
    (if s.inFlow then s else s.openHere kind) = s ∨
      (if s.inFlow then s else s.openHere kind) = { s with
        indent := Int.ofNat s.mark.column, outer := s.indent :: s.outer }.pushHere kind := by
  split
  · exact Or.inl rfl
  · unfold Lexer.openHere
    split
    · rename_i opened hopen
      rw [openBlock?_eq hopen]
      exact Or.inr rfl
    · exact Or.inl rfl

theorem Readies.cursor {kind : TokenKind} {ready : Lexer} (h : Readies s kind ready) :
    ready.cursor = s.cursor := by
  cases h with
  | margin hdrop => rw [dropKey_eq hdrop, unwind_cursor]
  | part _ hsave => rw [saveKey_eq hsave]
  | forget hdrop => rw [dropKey_eq hdrop]
  | @entry start _ _ hdrop =>
    rw [dropKey_eq hdrop]
    rcases openOutsideFlow_cases start s with heq | heq
    · rw [heq]
    · rw [heq]
      rfl
  | @value k _ =>
    rcases putKey_cases k s with ⟨opened, kinds, heq, ⟨rfl, -⟩ | ⟨rfl, -⟩⟩
    · rw [heq]
      rfl
    · rw [heq]
      rfl

/-! ## Reading -/

/-- Neither a directive nor a block scalar starts at the cursor. -/
def Ordinary (s : Lexer) : Prop :=
  ¬ (s.cursor.peek == '%' && s.cursor.mark.column == 0) = true ∧
    ¬ ((s.cursor.peek == '|' || s.cursor.peek == '>') && !s.inFlow) = true

/-- The token at the cursor, and where reading goes on behind it. -/
inductive Shows (s : Lexer) : Token → Cursor → Prop where
  | directive {t : Token} {next : Cursor} :
      (s.cursor.peek == '%' && s.cursor.mark.column == 0) = true →
      readDirective s.cursor = .ok (t, next) → Shows s t next
  | block {folded : Bool} {parent : Int} {t : Token} {next : Cursor} :
      ((s.cursor.peek == '|' || s.cursor.peek == '>') && !s.inFlow) = true →
      readBlock folded parent s.cursor = .ok (t, next) → Shows s t next
  | documentMark {kind : TokenKind} {a : Char} : s.Ordinary →
      kind = .documentStart ∧ a = '-' ∨ kind = .documentEnd ∧ a = '.' →
      s.cursor.atSeparator a = true →
      Shows s ⟨kind, s.mark, (s.cursor.advance 3).mark⟩ (s.cursor.advance 3)
  | indicator {kind : TokenKind} : s.Ordinary → kind ≠ .streamEnd → kind ≠ .documentEnd →
      Shows s ⟨kind, s.mark, (s.cursor.advance 1).mark⟩ (s.cursor.advance 1)
  | text {t : Token} {next : Cursor} : s.Ordinary → ReadsText s.cursor t next → Shows s t next

theorem Shows.reads {t : Token} {next : Cursor} (h : Shows s t next) : Reads s.cursor t next := by
  cases h with
  | directive _ hread => exact (runs_readDirective _ List.suffix_rfl).post _ hread
  | block _ hread => exact ((runs_readBlock [] _ _ _).post _ hread).toReads
  | documentMark _ hkind _ =>
    refine ⟨rfl, Passed.here (reaches_advance 2 s.cursor.skip), ?_⟩
    rcases hkind with ⟨rfl, -⟩ | ⟨rfl, -⟩ <;> exact TokenKind.noConfusion
  | indicator _ hkind _ => exact ⟨rfl, Passed.here (Reaches.refl _), hkind⟩
  | text _ hread => exact hread.toReads

/-- The token `t` is read: the state gets ready for it, and then it is queued. Only the ends of flow
collections leave a level, and after the key of that level was forgotten. -/
inductive Fetches (s : Lexer) (t : Token) : Lexer → Prop where
  | read {ready : Lexer} {next : Cursor} {flow : Int} (keyAllowed : Bool) :
      Readies s t.kind ready → Shows s t next →
      flow = ready.flow ∨ flow = ready.flow + 1 ∨ flow = ready.flow - 1 ∧ s.dropKey = .ok ready →
      Fetches s t { ready.push t with cursor := next, flow := flow, keyAllowed := keyAllowed }

namespace Readies

variable {t : Token} {ready : Lexer}

/-- An indicator is queued once the state is ready. -/
theorem fetches {kind : TokenKind} {n : Nat} {flow : Int} (h : Readies s kind ready)
    (keyAllowed : Bool)
    (hshows : Shows s ⟨kind, s.mark, (s.cursor.advance n).mark⟩ (s.cursor.advance n))
    (hflow : flow = ready.flow ∨ flow = ready.flow + 1 ∨
      flow = ready.flow - 1 ∧ s.dropKey = .ok ready) :
    ∃ t, Fetches s t
      ({ ready with flow := flow, keyAllowed := keyAllowed }.pushIndicator kind n) := by
  have hfetches := Fetches.read keyAllowed h hshows hflow
  rw [mark, ← h.cursor] at hfetches
  exact ⟨_, hfetches⟩

theorem fetchesText {next : Cursor} (h : Readies s t.kind ready) (keyAllowed : Bool)
    (hother : s.Ordinary) (hread : ReadsText ready.cursor t next) :
    ∃ t', Fetches s t' { ready.push t with cursor := next, keyAllowed := keyAllowed } := by
  rw [h.cursor] at hread
  exact ⟨t, .read keyAllowed h (.text hother hread) (Or.inl rfl)⟩

end Readies

theorem fetches_fetchDirective (h : s.fetchDirective = .ok s')
    (hguard : (s.cursor.peek == '%' && s.cursor.mark.column == 0) = true) :
    ∃ t, Fetches s t s' := by
  rcases Outcome.bind_eq_ok.1 h with ⟨ready, hdrop, hread⟩
  rcases Outcome.bind_eq_ok.1 hread with ⟨⟨t, next⟩, htoken, hlast⟩
  cases hlast
  have hready : Readies s t.kind ready := .margin hdrop
  rw [hready.cursor] at htoken
  exact ⟨t, .read false hready (.directive hguard htoken) (Or.inl rfl)⟩

theorem fetches_fetchBlockScalar {folded : Bool} (h : s.fetchBlockScalar folded = .ok s')
    (hguard : ((s.cursor.peek == '|' || s.cursor.peek == '>') && !s.inFlow) = true) :
    ∃ t, Fetches s t s' := by
  rcases Outcome.bind_eq_ok.1 h with ⟨dropped, hdrop, hread⟩
  rcases Outcome.bind_eq_ok.1 hread with ⟨⟨t, next⟩, htoken, hlast⟩
  cases hlast
  rcases dropKey_allow hdrop with ⟨ready, hready, rfl⟩
  have hready : Readies s t.kind ready := .forget hready
  rw [hready.cursor] at htoken
  have hfetches := Fetches.read true hready (.block hguard htoken) (Or.inl rfl)
  exact ⟨t, hfetches⟩

section Ordinary

variable (hother : s.Ordinary)

include hother

theorem fetches_fetchNodePart {read : Cursor → Except Halt (Token × Cursor)}
    (hreads : ∀ c, Runs c.rest c (fun r => ReadsText c r.1 r.2) (read c))
    (h : s.fetchNodePart read = .ok s') : ∃ t, Fetches s t s' := by
  rcases Outcome.bind_eq_ok.1 h with ⟨ready, hsave, hread⟩
  rcases Outcome.bind_eq_ok.1 hread with ⟨⟨t, next⟩, htoken, hlast⟩
  cases hlast
  have htext := (hreads _).post _ htoken
  exact Readies.fetchesText (.part (TokenKind.isPart_of_isText htext.text) hsave) false hother htext

/-- An indicator of one character, after the possible key was forgotten. -/
theorem fetches_indicator {opened dropped : Lexer} {keyAllowed : Bool} {kind : TokenKind}
    (hkind : kind ≠ .streamEnd ∧ kind ≠ .documentEnd)
    (hdrop : { opened with keyAllowed := keyAllowed }.dropKey = .ok dropped)
    (hready : ∀ {ready : Lexer}, opened.dropKey = .ok ready → Readies s kind ready) :
    ∃ t, Fetches s t (dropped.pushIndicator kind 1) := by
  rcases dropKey_allow hdrop with ⟨ready, hopened, rfl⟩
  exact (hready hopened).fetches keyAllowed (.indicator hother hkind.1 hkind.2) (Or.inl rfl)

/-- An indicator that needs a place where a key may start, and opens a block there. -/
theorem fetches_entry {part : BlockPart} {start kind : TokenKind} (keyAllowed : Lexer → Bool)
    (hstart : start = .blockSequenceStart ∨ start = .blockMappingStart)
    (hkind : kind ≠ .streamEnd ∧ kind ≠ .documentEnd)
    (h : (do
      let fresh ← s.requireFresh part
      let opened := if fresh.inFlow then fresh else fresh.openHere start
      let dropped ← { opened with keyAllowed := keyAllowed opened }.dropKey
      pure (dropped.pushIndicator kind 1)) = .ok s') : ∃ t, Fetches s t s' := by
  rcases Outcome.bind_eq_ok.1 h with ⟨fresh, hfresh, hblock⟩
  rcases requireFresh_eq hfresh with rfl
  rcases Outcome.bind_eq_ok.1 hblock with ⟨dropped, hdrop, hlast⟩
  cases hlast
  exact fetches_indicator hother hkind hdrop (.entry hstart)

theorem fetches_fetchValue (h : s.fetchValue = .ok s') : ∃ t, Fetches s t s' := by
  unfold Lexer.fetchValue at h
  split at h
  · rename_i k hkey
    cases h
    have hready : Readies s .value (s.putKey k) := .value hkey
    rw [fetchValueOf_eq]
    exact hready.fetches false (.indicator hother TokenKind.noConfusion TokenKind.noConfusion)
      (Or.inl rfl)
  · exact fetches_entry hother (fun opened => !opened.inFlow) (Or.inr rfl)
      ⟨TokenKind.noConfusion, TokenKind.noConfusion⟩ h

end Ordinary

/-- Reading one token comes to the end of the stream, or reads the token at the cursor. -/
theorem fetches_fetchHere (h : s.fetchHere = .ok s') :
    s.cursor.peek = endChar ∧ s.fetchStreamEnd = .ok s' ∨
      s.cursor.rest ≠ [] ∧ ∃ t, Fetches s t s' := by
  rcases fetchHere_cases s with ⟨hend, heq⟩ | ⟨hrest, htakes⟩
  · exact Or.inl ⟨hend, heq ▸ h⟩
  refine Or.inr ⟨hrest, ?_⟩
  by_cases hdirective : (s.cursor.peek == '%' && s.cursor.mark.column == 0) = true
  · exact fetches_fetchDirective (fetchHere_directive hdirective ▸ h) hdirective
  by_cases hblock : ((s.cursor.peek == '|' || s.cursor.peek == '>') && !s.inFlow) = true
  · rcases fetchHere_blockScalar hblock with ⟨folded, heq⟩
    exact fetches_fetchBlockScalar (heq ▸ h) hblock
  have hother : s.Ordinary := ⟨hdirective, hblock⟩
  generalize s.fetchHere = outcome at htakes h
  cases htakes with
  | directive hguard => exact absurd hguard hdirective
  | documentMark _ hkind hmark =>
    rcases Outcome.bind_eq_ok.1 h with ⟨ready, hdrop, hlast⟩
    cases hlast
    exact Readies.fetches (.margin hdrop) false (.documentMark hother hkind hmark) (Or.inl rfl)
  | flowStart _ hkind =>
    rcases Outcome.bind_eq_ok.1 h with ⟨ready, hsave, hlast⟩
    cases hlast
    rcases hkind with rfl | rfl <;>
      exact Readies.fetches (.part rfl hsave) true
        (.indicator hother TokenKind.noConfusion TokenKind.noConfusion) (Or.inr (Or.inl rfl))
  | flowEnd _ hkind =>
    rcases Outcome.bind_eq_ok.1 h with ⟨ready, hdrop, hlast⟩
    cases hlast
    rcases hkind with rfl | rfl <;>
      exact Readies.fetches (.forget hdrop) false
        (.indicator hother TokenKind.noConfusion TokenKind.noConfusion)
        (Or.inr (Or.inr ⟨rfl, hdrop⟩))
  | flowEntry =>
    rcases Outcome.bind_eq_ok.1 h with ⟨dropped, hdrop, hlast⟩
    cases hlast
    exact fetches_indicator hother ⟨TokenKind.noConfusion, TokenKind.noConfusion⟩ hdrop .forget
  | blockEntry =>
    exact fetches_entry hother (fun _ => true) (Or.inl rfl)
      ⟨TokenKind.noConfusion, TokenKind.noConfusion⟩ h
  | key =>
    exact fetches_entry hother (fun opened => !opened.inFlow) (Or.inr rfl)
      ⟨TokenKind.noConfusion, TokenKind.noConfusion⟩ h
  | value => exact fetches_fetchValue hother h
  | anchor isAlias => exact fetches_fetchNodePart hother (fun _ => runs_readAnchor _ isAlias _) h
  | tag => exact fetches_fetchNodePart hother (fun _ => runs_readTag _ _) h
  | blockScalar folded hguard => exact absurd hguard hblock
  | quoted double =>
    exact fetches_fetchNodePart hother (fun _ => runs_readQuoted _ double List.suffix_rfl) h
  | plain hplain =>
    rcases Outcome.bind_eq_ok.1 h with ⟨ready, hsave, hlast⟩
    cases hlast
    have hsaved : startsPlain ready.inFlow ready.cursor = true := by
      rw [saveKey_eq hsave]
      exact hplain
    have htext := readsText_readPlain ready.indent hsaved
    exact Readies.fetchesText (.part (TokenKind.isPart_of_isText htext.text) hsave) _ hother htext
  | stray a index => cases h

end Lexer
end Yaml
end YamlServer
