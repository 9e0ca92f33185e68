import YamlServer.Proofs.Yaml.Cursor

/-!
# What readers do

From a cursor on, a reader comes to a cursor further on, or it stops. Reading tokens stops by a
lexical fault, which a document reports, or by one of two things that no document reports: an escape
for a number beyond the last character, and a version number of too many digits. In either case the
text shows why.

* `Runs`: what the results of a reader satisfy, and that it stops in no other way. One lemma for
  each reader follows its definition.
-/

namespace YamlServer
namespace Yaml

open Cursor Outcome

/-- Eight hexadecimal digits after `\U` that write `n`, a number beyond the last character. -/
def LargeEscape (n : Nat) (text : List Char) : Prop :=
  0x110000 ≤ n ∧ ∃ digits, '\\' :: 'U' :: digits <:+: text ∧ digits.length = 8 ∧
    digits.all Text.isHexDigit = true ∧ Text.ofHex digits = n

/-- More decimal digits in a row than a version number may have. -/
def LongNumber (text : List Char) : Prop :=
  ∃ digits, digits <:+: text ∧ Numeral.maxDecimalDigits < digits.length ∧
    digits.all Text.isAsciiDigit = true

/-- The halts that a text without forbidden characters can have. -/
inductive Halt.Arises (text : List Char) : Halt → Prop where
  | lex (p : LexProblem) (offset : Nat) : Arises text (.lex p offset)
  | codePoint {n : Nat} (h : LargeEscape n text) : Arises text (.codePoint n)
  | longNumeral (h : LongNumber text) : Arises text .longNumeral

/-- The halts that reading can come to from a cursor on. A lexical fault is about a place that was
reached. -/
inductive Halt.ArisesFrom (text : List Char) (c : Cursor) : Halt → Prop where
  | lex (p : LexProblem) {c' : Cursor} (h : c.Reaches c') : ArisesFrom text c (.lex p c'.mark.index)
  | codePoint {n : Nat} (h : LargeEscape n text) : ArisesFrom text c (.codePoint n)
  | longNumeral (h : LongNumber text) : ArisesFrom text c .longNumeral

theorem Halt.ArisesFrom.arises {text : List Char} {c : Cursor} {halt : Halt}
    (h : halt.ArisesFrom text c) : halt.Arises text := by
  cases h with
  | lex p _ => exact .lex p _
  | codePoint h => exact .codePoint h
  | longNumeral h => exact .longNumeral h

/-- A reader that stops, from a cursor on, in a way the text can have. -/
abbrev Halts {α : Type} (text : List Char) (c : Cursor) (x : Except Halt α) : Prop :=
  FailsWith (Halt.ArisesFrom text c) x

/-- What is left of a text from a cursor on. -/
theorem Cursor.Reaches.suffix {c c' : Cursor} (h : c.Reaches c') : c'.rest <:+ c.rest := by
  rcases h with ⟨n, rfl⟩
  rw [rest_advance]
  exact List.drop_suffix n c.rest

/-- What stops from a cursor on stops from an earlier one on. -/
theorem Cursor.Reaches.halts {α : Type} {text : List Char} {b c : Cursor} {x : Except Halt α}
    (hb : b.Reaches c) (h : Halts text c x) : Halts text b x := by
  intro halt hhalt
  cases h halt hhalt with
  | lex p hreaches => exact .lex p (hb.trans hreaches)
  | codePoint h => exact .codePoint h
  | longNumeral h => exact .longNumeral h

theorem halts_lex {α : Type} {text : List Char} (p : LexProblem) {c c' : Cursor}
    (h : c.Reaches c') :
    Halts text c (.error (.lex p c'.mark.index) : Except Halt α) :=
  FailsWith.error (.lex p h)

/-- From a cursor on, the results of a reader satisfy `Q`, and it stops in a way the text can
have. -/
structure Runs {α : Type} (text : List Char) (c : Cursor) (Q : α → Prop) (x : Except Halt α) :
    Prop where
  post : ∀ a, x = .ok a → Q a
  halts : Halts text c x

namespace Runs

variable {α β : Type} {text : List Char} {b c c' : Cursor} {P Q : α → Prop} {R : β → Prop}
  {x : Except Halt α}

theorem ok {a : α} (h : Q a) : Runs text c Q (.ok a) := by
  refine ⟨?_, FailsWith.ok a⟩
  intro a' heq
  cases heq
  exact h

theorem error {halt : Halt} (h : halt.ArisesFrom text c) :
    Runs text c Q (.error halt : Except Halt α) := by
  refine ⟨?_, FailsWith.error h⟩
  intro a heq
  cases heq

theorem lex (p : LexProblem) (h : c.Reaches c') :
    Runs text c Q (.error (.lex p c'.mark.index) : Except Halt α) :=
  error (.lex p h)

theorem expected {place : LexPlace} {what : Expectation} {found : Char} (h : c.Reaches c') :
    Runs text c Q (Yaml.expected place what found c' : Except Halt α) :=
  lex _ h

theorem bind {f : α → Except Halt β} (hx : Runs text c P x)
    (hf : ∀ a, P a → Runs text c R (f a)) : Runs text c R (x >>= f) := by
  refine ⟨?_, FailsWith.bind hx.halts fun a ha => (hf a (hx.post a ha)).halts⟩
  intro r hr
  rcases Outcome.bind_eq_ok.1 hr with ⟨a, ha, hr⟩
  exact (hf a (hx.post a ha)).post r hr

theorem mono (h : Runs text c P x) (hpost : ∀ a, P a → Q a) : Runs text c Q x :=
  ⟨fun a ha => hpost a (h.post a ha), h.halts⟩

theorem lift (hb : b.Reaches c) (h : Runs text c P x) : Runs text b P x :=
  ⟨h.post, hb.halts h.halts⟩

/-- A reader that moves on from a cursor also does from an earlier one. -/
theorem onwards {x : Except Halt (α × Cursor)} (hb : b.Reaches c)
    (h : Runs text c (fun r => c.Reaches r.2) x) : Runs text b (fun r => b.Reaches r.2) x :=
  (h.lift hb).mono fun _ hr => hb.trans hr

end Runs

variable (text : List Char)

/-! ## Names, tags and directives -/

theorem runs_readName (place : LexPlace) (ends : Char → Bool) (c : Cursor) :
    Runs text c (fun r => c.Reaches r.2) (readName place ends c) := by
  have hname := reaches_skipWhile isNameChar c
  unfold readName
  dsimp only [Cursor.span]
  split
  · exact .expected (Reaches.refl c)
  · split
    · exact .ok hname
    · exact .expected hname

theorem runs_readAnchor (isAlias : Bool) (c : Cursor) :
    Runs text c (fun r => ReadsText c r.1 r.2) (readAnchor isAlias c) := by
  refine .bind ((runs_readName text _ _ _).lift (reaches_skip c)) ?_
  rintro ⟨name, after⟩ hname
  refine .ok (ReadsText.upTo hname rfl rfl ?_)
  -- Anchors and aliases are read alike, and differ in their kind only.
  cases isAlias <;> rfl

theorem runs_uriBytes (place : LexPlace) (fuel : Nat) (c : Cursor) :
    Runs text c (fun r => c.Reaches r.2) (uriBytes place fuel c) := by
  -- On the fuel, which bounds the number of escapes in a row.
  induction fuel generalizing c with
  | zero => exact .ok (Reaches.refl c)
  | succ fuel ih =>
    rw [uriBytes]
    split
    · dsimp only
      split
      · exact .expected (reaches_skip c)
      · split
        · exact .expected (reaches_skip c)
        · have hdigits : c.Reaches (c.skip.advance 2) :=
            (reaches_skip c).trans (reaches_advance 2 c.skip)
          refine .bind ((ih _).onwards hdigits) ?_
          rintro ⟨bytes, after⟩ hafter
          exact .ok hafter
    · exact .ok (Reaches.refl c)

theorem runs_uriEscapes (place : LexPlace) (c : Cursor) :
    Runs text c (fun r => c.Reaches r.2) (uriEscapes place c) := by
  refine .bind (runs_uriBytes text _ _ _) ?_
  rintro ⟨bytes, after⟩ hafter
  dsimp only
  split
  · exact .ok hafter
  · exact .lex _ (Reaches.refl c)

theorem runs_uriParts (place : LexPlace) (fuel : Nat) (c : Cursor) :
    Runs text c (fun r => c.Reaches r.2) (uriParts place fuel c) := by
  induction fuel generalizing c with
  | zero => exact .ok (Reaches.refl c)
  | succ fuel ih =>
    have hplain : c.Reaches (c.skipWhile isUriChar) := reaches_skipWhile _ c
    rw [uriParts]
    dsimp only [Cursor.span]
    split
    · refine .bind ((runs_uriEscapes text _ _).onwards hplain) ?_
      rintro ⟨escaped, next⟩ hnext
      refine .bind ((ih _).onwards hnext) ?_
      rintro ⟨more, after⟩ hafter
      exact .ok hafter
    · exact .ok hplain

theorem runs_readUri (place uriPlace : LexPlace) (c : Cursor) :
    Runs text c (fun r => c.Reaches r.2) (readUri place uriPlace c) := by
  refine .bind (runs_uriParts text _ _ _) ?_
  rintro ⟨parts, after⟩ hafter
  dsimp only
  split
  · exact .expected hafter
  · exact .ok hafter

theorem runs_readHandle (place : LexPlace) (c : Cursor) :
    Runs text c (fun r => c.skip.Reaches r.2) (readHandle place c) := by
  have hname := reaches_skipWhile isNameChar c.skip
  unfold readHandle
  split
  · exact .expected (Reaches.refl c)
  · split
    · exact .ok (Reaches.refl _)
    · dsimp only [Cursor.span]
      split
      · exact .ok (hname.trans (reaches_skip _))
      · exact .expected ((reaches_skip c).trans hname)

theorem runs_readTag (c : Cursor) :
    Runs text c (fun r => ReadsText c r.1 r.2) (readTag c) := by
  -- Each form of a tag goes on with the test for a blank after it.
  have hfinish : ∀ (handle : Option String) (suffix : String) {after : Cursor},
      c.skip.Reaches after → Runs text c (fun r => ReadsText c r.1 r.2)
        (if endsWord after.peek then pure (⟨.tag handle suffix, c.mark, after.mark⟩, after)
          else expected .tag .space after.peek after) := by
    intro handle suffix after hafter
    split
    · exact .ok (ReadsText.upTo hafter rfl rfl rfl)
    · exact .expected ((reaches_skip c).trans hafter)
  unfold readTag
  dsimp only
  -- A tag in full between angle brackets, the tag of no more than its mark, one with a handle, and
  -- one without.
  split
  · refine .bind (((runs_readUri text _ _ _).onwards (reaches_advance 1 c.skip)).lift
      (reaches_skip c)) ?_
    rintro ⟨uri, close⟩ hclose
    dsimp only
    split
    · exact hfinish _ _ (hclose.trans (reaches_skip close))
    · exact .expected ((reaches_skip c).trans hclose)
  · split
    · exact hfinish _ _ (Reaches.refl _)
    · split
      · refine .bind (runs_readHandle text _ _) ?_
        rintro ⟨handle, body⟩ hbody
        refine .bind (((runs_readUri text _ _ _).onwards hbody).lift (reaches_skip c)) ?_
        rintro ⟨suffix, after⟩ hafter
        exact hfinish _ _ hafter
      · refine .bind ((runs_readUri text _ _ _).lift (reaches_skip c)) ?_
        rintro ⟨suffix, after⟩ hafter
        exact hfinish _ _ hafter

/-- A version number that is too long is a run of digits of the text. -/
theorem runs_readVersionNumber {c : Cursor} (hc : c.rest <:+ text) :
    Runs text c (fun r => c.Reaches r.2) (readVersionNumber c) := by
  unfold readVersionNumber
  dsimp only [Cursor.span]
  split
  · exact .expected (Reaches.refl c)
  · split
    · rename_i hlong
      -- The digits that were read stand in the text in a row.
      refine .error (.longNumeral ⟨c.rest.takeWhile Text.isAsciiDigit, ?_, hlong, ?_⟩)
      · exact (List.takeWhile_prefix _).isInfix.trans hc.isInfix
      · exact List.all_takeWhile
    · exact .ok (reaches_skipWhile _ c)

theorem runs_readVersion {c : Cursor} (hc : c.rest <:+ text) :
    Runs text c (fun r => c.Reaches r.2) (readVersion c) := by
  have hspaces := reaches_skipSpaces c
  refine .bind ((runs_readVersionNumber text (hspaces.suffix.trans hc)).onwards hspaces) ?_
  rintro ⟨major, point⟩ hpoint
  dsimp only
  split
  · exact .expected hpoint
  · have hminor := hpoint.trans (reaches_skip point)
    refine .bind ((runs_readVersionNumber text (hminor.suffix.trans hc)).onwards hminor) ?_
    rintro ⟨minor, after⟩ hafter
    dsimp only
    split
    · exact .ok hafter
    · exact .expected hafter

theorem runs_readTagDirective (c : Cursor) :
    Runs text c (fun r => c.Reaches r.2) (readTagDirective c) := by
  have hspaces := reaches_skipSpaces c
  refine .bind ((runs_readHandle text _ _).lift hspaces) ?_
  rintro ⟨handle, gap⟩ hhandle
  have hgap := hspaces.trans ((reaches_skip _).trans hhandle)
  dsimp only
  split
  · exact .expected hgap
  · refine .bind ((runs_readUri text _ _ _).onwards (hgap.trans (reaches_skipSpaces gap))) ?_
    rintro ⟨replacement, after⟩ hafter
    dsimp only
    split
    · exact .ok hafter
    · exact .expected hafter

theorem runs_finishLine (place : LexPlace) (c : Cursor) :
    Runs text c c.Reaches (finishLine place c) := by
  have hline := (reaches_skipSpaces c).trans (reaches_skipComment _)
  unfold finishLine
  dsimp only
  split
  · exact .ok (hline.trans (reaches_lineBreak _))
  · exact .expected hline

def directiveBody (c : Cursor) : Except Halt (Directive × Cursor) := do
  let (name, afterName) ← readName .directive endsWord c.skip
  if name == "YAML" then readVersion afterName
  else if name == "TAG" then readTagDirective afterName
  else pure (.other name, afterName)

/-- Where the line of a directive is finished: the parameters of one without a meaning are passed
over. -/
def directiveRest : Directive → Cursor → Cursor
  | .other _, after => after.skipWhile fun a => !isBreak a
  | _, after => after

theorem reaches_directiveRest (d : Directive) (after : Cursor) :
    after.Reaches (directiveRest d after) := by
  cases d with
  | other name => exact reaches_skipWhile _ after
  | version major minor => exact Reaches.refl after
  | tag handle replacement => exact Reaches.refl after

theorem runs_directiveBody {c : Cursor} (hc : c.rest <:+ text) :
    Runs text c (fun r => c.skip.Reaches r.2) (directiveBody c) := by
  have hskip := reaches_skip c
  refine .bind ((runs_readName text _ _ _).lift hskip) ?_
  rintro ⟨name, afterName⟩ hname
  dsimp only
  split
  · have hrest := (hskip.trans hname).suffix.trans hc
    exact ((runs_readVersion text hrest).onwards hname).lift hskip
  · split
    · exact ((runs_readTagDirective text _).onwards hname).lift hskip
    · exact .ok hname

/-- The token of a directive ends with it, and what follows on its line is passed over. -/
theorem readDirective_eq (c : Cursor) : readDirective c = (do
    let (d, after) ← directiveBody c
    let next ← finishLine .directive (directiveRest d after)
    return (⟨.directive d, c.mark, after.mark⟩, next)) := by
  unfold readDirective directiveBody
  rw [bind_assoc]
  congr 1
  funext ⟨name, afterName⟩
  dsimp only
  split
  · congr 1
    funext ⟨d, after⟩
    cases d <;> rfl
  · split
    · congr 1
      funext ⟨d, after⟩
      cases d <;> rfl
    · rfl

theorem exists_body_of_readDirective {c c' : Cursor} {t : Token}
    (h : readDirective c = .ok (t, c')) :
    ∃ d after, directiveBody c = .ok (d, after) ∧
      finishLine .directive (directiveRest d after) = .ok c' ∧
      t = ⟨.directive d, c.mark, after.mark⟩ := by
  rw [readDirective_eq] at h
  rcases Outcome.bind_eq_ok.1 h with ⟨⟨d, after⟩, hbody, hline⟩
  rcases Outcome.bind_eq_ok.1 hline with ⟨next, hnext, hlast⟩
  cases hlast
  exact ⟨d, after, hbody, hnext, rfl⟩

theorem runs_readDirective {c : Cursor} (hc : c.rest <:+ text) :
    Runs text c (fun r => Reads c r.1 r.2) (readDirective c) := by
  have hskip := reaches_skip c
  rw [readDirective_eq]
  refine .bind (runs_directiveBody text hc) ?_
  rintro ⟨d, after⟩ hafter
  have hrest := reaches_directiveRest d after
  refine .bind ((runs_finishLine text _ _).lift (hskip.trans (hafter.trans hrest))) ?_
  rintro next hnext
  exact .ok ⟨rfl, ⟨after, hafter, hrest.trans hnext, rfl⟩, TokenKind.noConfusion⟩

/-! ## Quoted scalars -/

theorem runs_quotedBreaks (fuel : Nat) (c : Cursor) :
    Runs text c (fun r => c.Reaches r.2) (quotedBreaks fuel c) := by
  induction fuel generalizing c with
  | zero => exact .ok (Reaches.refl c)
  | succ fuel ih =>
    have hblanks : c.Reaches (c.skipWhile isSpaceTab) := reaches_skipWhile _ c
    rw [quotedBreaks]
    split
    · exact .lex _ (Reaches.refl c)
    · dsimp only
      split
      · refine .bind ((ih _).onwards (hblanks.trans (reaches_lineBreak _))) ?_
        rintro ⟨more, after⟩ hafter
        exact .ok hafter
      · exact .ok hblanks

/-- The text goes on with the character that a cursor shows, unless it shows the end. -/
theorem rest_eq_of_peek {c : Cursor} {a : Char} (h : c.peek = a) (ha : a ≠ endChar) :
    c.rest = a :: c.skip.rest := by
  unfold peek at h
  unfold skip
  split
  · rename_i hrest
    rw [hrest] at h
    exact absurd h.symm ha
  · rename_i b rest hrest
    rw [hrest] at h ⊢
    exact congrArg (· :: rest) h

/-- Hexadecimal digits at the first `width` places ahead. -/
theorem hexDigits_take {c : Cursor} {width : Nat}
    (h : ∀ k < width, Text.isHexDigit (c.peekAt k) = true) :
    (c.rest.take width).length = width ∧ (c.rest.take width).all Text.isHexDigit = true := by
  simp only [peekAt, List.getD_eq_getElem?_getD] at h
  -- Past the end of the text there is no digit.
  have hlength : width ≤ c.rest.length := by
    refine Nat.le_of_not_lt fun hshort => ?_
    have hend := h c.rest.length hshort
    rw [List.getElem?_eq_none (Nat.le_refl _)] at hend
    exact absurd hend (by decide)
  refine ⟨List.length_take_of_le hlength, List.all_eq_true.2 ?_⟩
  intro d hd
  rcases List.mem_take_iff_getElem.1 hd with ⟨k, hk, rfl⟩
  have hplace : k < c.rest.length := by omega
  have hdigit := h k (by omega)
  rwa [List.getElem?_eq_getElem hplace] at hdigit

theorem ofDigits_lt {base : Nat} (digits : List Nat) (h : ∀ d ∈ digits, d < base) {acc k : Nat}
    (hacc : acc < Nat.pow base k) :
    Text.ofDigits base acc digits < Nat.pow base (k + digits.length) := by
  -- On the digits: each multiplies the bound by the base.
  induction digits generalizing acc k with
  | nil => exact hacc
  | cons d rest ih =>
    have hd := h d List.mem_cons_self
    have hnext : acc * base + d < Nat.pow base (k + 1) := by
      calc
        acc * base + d < acc * base + base := Nat.add_lt_add_left hd _
        _ = (acc + 1) * base := (Nat.succ_mul acc base).symm
        _ ≤ Nat.pow base k * base := Nat.mul_le_mul_right base hacc
    have hrest := ih (fun d' hd' => h d' (List.mem_cons_of_mem _ hd')) hnext
    rw [Text.ofDigits, List.length_cons, Nat.add_comm rest.length, ← Nat.add_assoc]
    exact hrest

theorem alnumDigit_lt {d : Char} (h : Text.isHexDigit d = true) :
    (Text.alnumDigit? d).getD 0 < 16 := by
  have hle : ∀ {a b : Char}, a ≤ b ↔ a.toNat ≤ b.toNat := UInt32.le_iff_toNat_le
  simp only [Text.isHexDigit, Text.isAsciiDigit, Bool.or_eq_true, Bool.and_eq_true,
    decide_eq_true_eq, hle, Char.reduceToNat] at h
  simp only [Text.alnumDigit?, hle, Char.reduceToNat]
  split
  · rw [Option.getD_some]
    omega
  · split
    · rw [Option.getD_some]
      omega
    · split
      · rw [Option.getD_some]
        omega
      · decide

theorem ofHex_lt {digits : List Char} (h : digits.all Text.isHexDigit = true) :
    Text.ofHex digits < Nat.pow 16 digits.length := by
  have hvalues : ∀ d ∈ digits.map fun a => (Text.alnumDigit? a).getD 0, d < 16 := by
    intro d hd
    rcases List.mem_map.1 hd with ⟨a, ha, rfl⟩
    exact alnumDigit_lt (List.all_eq_true.1 h a ha)
  have hstart : 0 < Nat.pow 16 0 := by decide
  have hlt := ofDigits_lt _ hvalues hstart
  rwa [Nat.zero_add, List.length_map] at hlt

/-- Only an escape of eight digits can write a number beyond the last character. -/
theorem escape_eq {a : Char} {width : Nat} {digits : List Char}
    (hwidth : escapeWidth? a = some width) (hlength : digits.length = width)
    (hdigits : digits.all Text.isHexDigit = true) (hlarge : 0x110000 ≤ Text.ofHex digits) :
    a = 'U' ∧ width = 8 := by
  have hlt := ofHex_lt hdigits
  rw [hlength] at hlt
  have hwide := Nat.lt_of_le_of_lt hlarge hlt
  -- Two and four digits are too few for such a number.
  unfold escapeWidth? at hwidth
  split at hwidth
  · cases hwidth
    exact absurd hwide (by decide)
  · cases hwidth
    exact absurd hwide (by decide)
  · cases hwidth
    exact ⟨rfl, rfl⟩
  · cases hwidth

theorem runs_readEscape {c : Cursor} (hc : '\\' :: c.rest <:+ text) :
    Runs text c (fun r => c.Reaches r.2) (readEscape c) := by
  unfold readEscape
  dsimp only
  split
  · exact .ok (reaches_skip c)
  · rename_i width hsimple hwidth
    split
    · exact .expected (reaches_skip c)
    · rename_i hnone
      split
      · exact .ok ((reaches_skip c).trans (reaches_advance _ _))
      · rename_i hlarge
        -- No place was found where a digit is missing.
        have hhex : ∀ k < width, Text.isHexDigit (c.skip.peekAt k) = true := by
          intro k hk
          have hk' := List.find?_eq_none.1 hnone k (List.mem_range.2 hk)
          simpa using hk'
        rcases hexDigits_take hhex with ⟨hlength, hdigits⟩
        have hlarge' := Nat.le_of_not_lt hlarge
        rcases escape_eq hwidth hlength hdigits hlarge' with ⟨hletter, rfl⟩
        rw [rest_eq_of_peek hletter (by decide)] at hc
        refine .error (.codePoint ⟨hlarge', _, ?_, hlength, hdigits, rfl⟩)
        have hprefix : '\\' :: 'U' :: c.skip.rest.take 8 <+: '\\' :: 'U' :: c.skip.rest := by
          rw [List.prefix_cons_inj, List.prefix_cons_inj]
          exact List.take_prefix 8 _
        exact hprefix.isInfix.trans hc.isInfix
  · split
    · exact (runs_quotedBreaks text _ _).onwards (reaches_lineBreak c)
    · exact .lex _ (Reaches.refl c)

theorem runs_readQuotedGap (c : Cursor) :
    Runs text c (fun r => c.Reaches r.2) (readQuotedGap c) := by
  have hblanks : c.Reaches (c.skipWhile isSpaceTab) := reaches_skipWhile _ c
  unfold readQuotedGap
  dsimp only [Cursor.span]
  split
  · exact .lex _ hblanks
  · split
    · refine .bind ((runs_quotedBreaks text _ _).onwards (hblanks.trans (reaches_lineBreak _))) ?_
      rintro ⟨more, after⟩ hafter
      exact .ok hafter
    · exact .ok hblanks

theorem runs_quotedContent (double : Bool) (fuel : Nat) {c : Cursor} (hc : c.rest <:+ text) :
    Runs text c (fun r => c.Reaches r.2) (quotedContent double fuel c) := by
  induction fuel generalizing c with
  | zero => exact .ok (Reaches.refl c)
  | succ fuel ih =>
    -- Every way on reads one piece and leaves the others to the recursion.
    have honwards : ∀ {step : Except Halt (List Char × Cursor)},
        Runs text c (fun r => c.Reaches r.2) step →
        Runs text c (fun r => c.Reaches r.2)
          (step >>= fun read => quotedContent double fuel read.2 >>= fun others =>
            pure (read.1 ++ others.1, others.2)) := by
      intro step hstep
      refine .bind hstep ?_
      rintro ⟨piece, next⟩ hnext
      refine .bind ((ih (hnext.suffix.trans hc)).onwards hnext) ?_
      rintro ⟨more, after⟩ hafter
      exact .ok hafter
    -- A run of plain characters, a gap, and then the characters with a meaning in either style.
    rw [quotedContent]
    dsimp only
    split
    · exact honwards (.ok (reaches_skipWhile _ c))
    · split
      · exact honwards (runs_readQuotedGap text c)
      · split
        · split
          · exact .ok (reaches_skip c)
          · split
            · rename_i hslash
              refine honwards ((runs_readEscape text ?_).onwards (reaches_skip c))
              rwa [← rest_eq_of_peek (beq_iff_eq.1 hslash) (by decide)]
            · exact honwards (.ok (reaches_skip c))
        · split
          · split
            · exact honwards (.ok (reaches_advance 2 c))
            · exact .ok (reaches_skip c)
          · exact honwards (.ok (reaches_skip c))

theorem runs_readQuoted (double : Bool) {c : Cursor} (hc : c.rest <:+ text) :
    Runs text c (fun r => ReadsText c r.1 r.2) (readQuoted double c) := by
  have hbody := reaches_skip c
  refine .bind ((runs_quotedContent text double _ (hbody.suffix.trans hc)).lift hbody) ?_
  rintro ⟨content, after⟩ hafter
  exact .ok (ReadsText.upTo hafter rfl rfl rfl)

/-! ## Plain scalars -/

theorem blankTo_plainBreaks (fuel : Nat) (c : Cursor) : c.BlankTo (plainBreaks fuel c).2 := by
  induction fuel generalizing c with
  | zero => exact BlankTo.refl c
  | succ fuel ih =>
    rw [plainBreaks]
    split
    · rename_i hspace
      exact (BlankTo.skip (Or.inl (beq_iff_eq.1 hspace))).trans (ih c.skip)
    · split
      · dsimp only
        split
        · exact blankTo_lineBreak c
        · exact (blankTo_lineBreak c).trans (ih _)
      · exact BlankTo.refl c

theorem blankTo_plainGap (c : Cursor) : c.BlankTo (plainGap c).2.2 := by
  have hblanks : c.BlankTo (c.skipWhile (· == ' ')) := blankTo_skipSpaces c
  have hline := hblanks.trans (blankTo_lineBreak _)
  unfold plainGap
  dsimp only [Cursor.span]
  split
  -- Over the end of a line the gap goes on through the blank lines after it.
  · split
    · exact hline
    · have hbreaks := blankTo_plainBreaks
        ((c.skipWhile (· == ' ')).lineBreak.2.rest.length + 1) (c.skipWhile (· == ' ')).lineBreak.2
      split <;>
      · rename_i heq
        rw [heq] at hbreaks
        exact hline.trans hbreaks
  · exact hblanks

/-- A plain scalar ends with the last word it took. -/
theorem passedLast_plainWords {base : Cursor} (inFlow : Bool) (indent : Int) (fuel : Nat)
    (gap : List Char) {stop : Mark} (broke : Bool) {c : Cursor} (h : base.PassedLast c stop) :
    base.PassedLast (plainWords inFlow indent fuel gap stop broke c).after
      (plainWords inFlow indent fuel gap stop broke c).stop := by
  -- On the fuel. The gap after a word is passed before it is known whether another word follows, so
  -- the end of the scalar lies behind the cursor.
  induction fuel generalizing gap stop broke c with
  | zero => exact h
  | succ fuel ih =>
    rw [plainWords]
    dsimp only
    split
    · exact h
    · have hword := h.passed.reaches.trans
        (reaches_advance (plainWord inFlow c.rest).length c)
      have hgap := (PassedLast.here hword).extend (blankTo_plainGap _)
      split
      · exact hgap
      · exact ih _ _ hgap

/-- A character that starts a plain scalar starts no comment and does not end a word. -/
theorem endsPlain_of_startsPlain {inFlow : Bool} {c : Cursor} (h : startsPlain inFlow c = true) :
    (c.peek == '#') = false ∧ endsPlain inFlow c.peek (c.peekAt 1) = false := by
  simp only [startsPlain, Bool.or_eq_true, Bool.and_eq_true, Bool.not_eq_true',
    Bool.or_eq_false_iff, beq_iff_eq] at h
  rcases h with ⟨hgap, hindicator⟩ | ⟨hnext, hdash | ⟨rfl, hquestion | hcolon⟩⟩
  · -- The indicators of flow collections and the colon are among those that start no plain scalar.
    have hflow : ",?[]\x7b\x7d".toList ⊆ "-?:,[]\x7b\x7d#&*!|>'\"%@`".toList := by decide
    rw [List.contains_eq_mem, decide_eq_false_iff_not] at hindicator
    have hcolon : (c.peek == ':') = false :=
      beq_false_of_ne fun heq => hindicator (heq ▸ by decide)
    have hcomment : (c.peek == '#') = false :=
      beq_false_of_ne fun heq => hindicator (heq ▸ by decide)
    have hother : ",?[]\x7b\x7d".toList.contains c.peek = false := by
      rw [List.contains_eq_mem, decide_eq_false_iff_not]
      exact fun hmem => hindicator (hflow hmem)
    refine ⟨hcomment, ?_⟩
    rw [endsPlain, hgap, hcolon, hother, Bool.and_false]
    rfl
  · rw [hdash]
    cases inFlow <;> exact ⟨rfl, rfl⟩
  · rw [hquestion]
    exact ⟨rfl, rfl⟩
  · rw [hcolon, endsPlain, hnext]
    exact ⟨rfl, rfl⟩

/-- Where a plain scalar can start, there is a word. -/
theorem plainWord_ne_nil {inFlow : Bool} {c : Cursor} (h : startsPlain inFlow c = true) :
    plainWord inFlow c.rest ≠ [] := by
  have hends := (endsPlain_of_startsPlain h).2
  unfold Cursor.peek Cursor.peekAt at hends
  cases hrest : c.rest with
  | nil =>
    rw [hrest] at hends
    cases hends
  | cons a rest =>
    have hnext : (a :: rest).getD 1 endChar = rest.headD endChar := by
      cases rest <;> rfl
    rw [hrest, List.headD_cons, hnext] at hends
    rw [plainWord, hends]
    exact List.cons_ne_nil _ _

/-- A plain scalar goes on behind its first word. -/
theorem passedLast_plainWords_first {inFlow : Bool} (indent : Int) (fuel : Nat) {c : Cursor}
    (h : startsPlain inFlow c = true) :
    c.skip.PassedLast (plainWords inFlow indent (fuel + 1) [] c.mark false c).after
      (plainWords inFlow indent (fuel + 1) [] c.mark false c).stop := by
  have hword := plainWord_ne_nil h
  have htest : (c.peek == '#' || (plainWord inFlow c.rest).isEmpty) = false := by
    rw [(endsPlain_of_startsPlain h).1, List.isEmpty_eq_false_iff.2 hword]
    rfl
  -- The word has a first character, which is the one skipped.
  have hmoved : c.skip.Reaches (c.advance (plainWord inFlow c.rest).length) := by
    cases hletters : plainWord inFlow c.rest with
    | nil => exact absurd hletters hword
    | cons a letters => exact reaches_advance letters.length c.skip
  have hgap := (PassedLast.here hmoved).extend (blankTo_plainGap _)
  rw [plainWords]
  dsimp only
  rw [htest, if_neg Bool.false_ne_true]
  split
  · exact hgap
  · exact passedLast_plainWords _ _ _ _ _ hgap

theorem readsText_readPlain {inFlow : Bool} (parent : Int) {c : Cursor}
    (h : startsPlain inFlow c = true) :
    ReadsText c (readPlain inFlow parent c).1 (readPlain inFlow parent c).2.2 :=
  ReadsText.ofLast rfl (passedLast_plainWords_first (parent + 1) c.rest.length h) rfl

/-! ## Block scalars -/

theorem reaches_readChomping? {c c' : Cursor} {chomping : Chomping}
    (h : readChomping? c = some (chomping, c')) : c.Reaches c' := by
  unfold readChomping? at h
  split at h
  · cases h
    exact reaches_skip c
  · split at h
    · cases h
      exact reaches_skip c
    · cases h

theorem runs_readIncrement (c : Cursor) :
    Runs text c (fun r => c.Reaches r.2) (readIncrement c) := by
  unfold readIncrement
  split
  · split
    · exact .lex _ (Reaches.refl c)
    · exact .ok (reaches_skip c)
  · exact .ok (Reaches.refl c)

/-- A header ends before a blank or with the text. -/
theorem runs_readHeader (c : Cursor) :
    Runs text c (fun r => c.Reaches r.2.2 ∧ endsWord r.2.2.peek = true) (readHeader c) := by
  have hfinish : ∀ (chomping : Chomping) (increment : Option Nat) {after : Cursor},
      c.Reaches after → Runs text c (fun r => c.Reaches r.2.2 ∧ endsWord r.2.2.peek = true)
        (if endsWord after.peek then pure (chomping, increment, after)
          else expected .blockScalar .blockIndicators after.peek after) := by
    intro chomping increment after hafter
    split
    · rename_i hword
      exact .ok ⟨hafter, hword⟩
    · exact .expected hafter
  unfold readHeader
  dsimp only
  split
  · rename_i chomping next hchomping
    refine .bind ((runs_readIncrement text _).onwards (reaches_readChomping? hchomping)) ?_
    rintro ⟨increment, after⟩ hafter
    exact hfinish _ _ hafter
  · refine .bind (runs_readIncrement text _) ?_
    rintro ⟨increment, next⟩ hnext
    dsimp only
    split
    · rename_i hchomping
      exact hfinish _ _ (hnext.trans (reaches_readChomping? hchomping))
    · exact hfinish _ _ hnext

theorem passedLast_leadingBreaks {base : Cursor} (fuel widest : Nat) {stop : Mark} {c : Cursor}
    (h : base.PassedLast c stop) :
    base.PassedLast (leadingBreaks fuel widest stop c).2.2.2
      (leadingBreaks fuel widest stop c).2.2.1 := by
  induction fuel generalizing widest stop c with
  | zero => exact h
  | succ fuel ih =>
    rw [leadingBreaks]
    split
    · rename_i hspace
      exact ih _ (h.extend (BlankTo.skip (Or.inl (beq_iff_eq.1 hspace))))
    · split
      · exact ih _ (PassedLast.here (h.passed.reaches.trans (reaches_lineBreak c)))
      · exact h

theorem blankTo_skipIndent (indent fuel : Nat) (c : Cursor) :
    c.BlankTo (skipIndent indent fuel c) := by
  induction fuel generalizing c with
  | zero => exact BlankTo.refl c
  | succ fuel ih =>
    rw [skipIndent]
    split
    · rename_i hspace
      have hpeek := beq_iff_eq.1 (Bool.and_eq_true_iff.1 hspace).2
      exact (BlankTo.skip (Or.inl hpeek)).trans (ih c.skip)
    · exact BlankTo.refl c

theorem passedLast_blockBreaks {base : Cursor} (indent fuel : Nat) {stop : Mark} {c : Cursor}
    (h : base.PassedLast c stop) :
    base.PassedLast (blockBreaks indent fuel stop c).2.2 (blockBreaks indent fuel stop c).2.1 := by
  induction fuel generalizing stop c with
  | zero => exact h
  | succ fuel ih =>
    have hindent := blankTo_skipIndent indent indent c
    rw [blockBreaks]
    dsimp only
    split
    · exact ih (PassedLast.here
        (h.passed.reaches.trans (hindent.reaches.trans (reaches_lineBreak _))))
    -- The last indentation belongs to no break, and the end stays before it.
    · exact h.extend hindent

/-- A block scalar ends after the last break it took. -/
theorem passedLast_blockLines {base : Cursor} (folded : Bool) (indent fuel : Nat)
    (lastBreak breaks : List Char) {stop : Mark} {c : Cursor} (h : base.PassedLast c stop) :
    base.PassedLast (blockLines folded indent fuel lastBreak breaks stop c).after
      (blockLines folded indent fuel lastBreak breaks stop c).stop := by
  induction fuel generalizing lastBreak breaks stop c with
  | zero => exact h
  | succ fuel ih =>
    rw [blockLines]
    split
    · have hline := h.passed.reaches.trans (reaches_skipWhile (fun a => !endsLine a) c)
      have hbreak := PassedLast.here (hline.trans (reaches_lineBreak _))
      exact ih _ _ (passedLast_blockBreaks indent _ hbreak)
    · exact h

/-- A block scalar has a header, the rest of the line of which is passed over, and ends behind
it. -/
theorem exists_header_of_readBlock {folded : Bool} {parent : Int} {c c' : Cursor} {t : Token}
    (h : readBlock folded parent c = .ok (t, c')) :
    ∃ chomping increment header body, readHeader c.skip = .ok (chomping, increment, header) ∧
      finishLine .blockScalar header = .ok body ∧ body.PassedLast c' t.stop ∧ t.start = c.mark ∧
      t.kind.isText = true := by
  rcases Outcome.bind_eq_ok.1 h with ⟨⟨chomping, increment, header⟩, hheader, hrest⟩
  rcases Outcome.bind_eq_ok.1 hrest with ⟨body, hbody, hlines⟩
  refine ⟨chomping, increment, header, body, hheader, hbody, ?_⟩
  have hfirst : body.PassedLast body body.mark := PassedLast.here (Reaches.refl body)
  -- Without an indentation indicator, the blank lines in front decide how far the text is indented.
  cases increment with
  | none =>
    have hleading := passedLast_leadingBreaks (body.rest.length + 1) 0 hfirst
    dsimp only at hlines
    generalize leadingBreaks (body.rest.length + 1) 0 body.mark body = leading at hlines hleading
    cases hlines
    exact ⟨passedLast_blockLines _ _ _ _ _ hleading, rfl, rfl⟩
  | some n =>
    have hbreaks := passedLast_blockBreaks ((max (parent + 1) 1).toNat + n - 1)
      (body.rest.length + 1) hfirst
    dsimp only at hlines
    generalize blockBreaks ((max (parent + 1) 1).toNat + n - 1) (body.rest.length + 1)
      body.mark body = blank at hlines hbreaks
    cases hlines
    exact ⟨passedLast_blockLines _ _ _ _ _ hbreaks, rfl, rfl⟩

theorem runs_readBlock (folded : Bool) (parent : Int) (c : Cursor) :
    Runs text c (fun r => ReadsText c r.1 r.2) (readBlock folded parent c) := by
  constructor
  · rintro ⟨t, c'⟩ h
    rcases exists_header_of_readBlock h with
      ⟨chomping, increment, header, body, hheader, hbody, hlast, hstart, htext⟩
    have hmoved : c.skip.Reaches body :=
      ((runs_readHeader text _).post _ hheader).1.trans ((runs_finishLine text _ _).post _ hbody)
    -- The body ends behind the header, and so behind the indicator.
    exact ReadsText.ofLast hstart (hlast.before hmoved) htext
  · have hskip := reaches_skip c
    refine FailsWith.bind ((runs_readHeader text _).lift hskip).halts ?_
    rintro ⟨chomping, increment, header⟩ hheader
    have hline := hskip.trans ((runs_readHeader text _).post _ hheader).1
    refine FailsWith.bind ((runs_finishLine text _ _).lift hline).halts ?_
    rintro body -
    exact FailsWith.ok _

end Yaml
end YamlServer
