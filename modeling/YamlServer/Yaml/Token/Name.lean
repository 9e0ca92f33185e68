import YamlServer.Number.Numeral
import YamlServer.Yaml.Problem
import YamlServer.Yaml.Token

/-!
# Names, tags and directives

The tokens that start with `&`, `*`, `!` and `%`. Each reader takes the cursor at its indicator and
gives the token and the cursor after it.

* `readAnchor`: an anchor or an alias.
* `readTag`: a tag, as a handle and a suffix.
* `readDirective`: a directive and the rest of its line.
-/

namespace YamlServer
namespace Yaml

def expected {α : Type} (place : LexPlace) (what : Expectation) (found : Char) (c : Cursor) :
    Except Halt α :=
  .error (.lex (.expected place what found) c.mark.index)

/-! ## Anchors and aliases -/

def followsName (c : Char) : Bool :=
  isGap c || "?:,]\x7d%@`".toList.contains c

def readName (place : LexPlace) (ends : Char → Bool) (c : Cursor) :
    Except Halt (String × Cursor) :=
  let (name, after) := c.span isNameChar
  if name.isEmpty then expected place .nameCharacter after.peek c
  else if ends after.peek then .ok (String.ofList name, after)
  else expected place .nameCharacter after.peek after

/-- An anchor or an alias; the cursor is at its indicator. -/
def readAnchor (isAlias : Bool) (c : Cursor) : Except Halt (Token × Cursor) := do
  let place := if isAlias then LexPlace.alias else LexPlace.anchor
  let (name, after) ← readName place followsName c.skip
  let kind := if isAlias then TokenKind.alias name else TokenKind.anchor name
  return (⟨kind, c.mark, after.mark⟩, after)

/-! ## Tags -/

def isUriChar (c : Char) : Bool :=
  isNameChar c || ";/?:@&=+$,.!~*'()[]".toList.contains c

/-- The bytes of a run of percent escapes, and the cursor after it. -/
def uriBytes (place : LexPlace) : Nat → Cursor → Except Halt (List UInt8 × Cursor)
  | 0, c => .ok ([], c)
  | fuel + 1, c =>
    if c.peek == '%' then
      let digits := c.skip
      if !Text.isHexDigit (digits.peekAt 0) then expected place .uriEscape (digits.peekAt 0) digits
      else if !Text.isHexDigit (digits.peekAt 1) then
        expected place .uriEscape (digits.peekAt 1) digits
      else do
        let byte := Text.ofHex (digits.rest.take 2)
        let (bytes, after) ← uriBytes place fuel (digits.advance 2)
        return (byte.toUInt8 :: bytes, after)
    else .ok ([], c)

def uriEscapes (place : LexPlace) (c : Cursor) : Except Halt (List Char × Cursor) := do
  let (bytes, after) ← uriBytes place c.rest.length c
  match Utf8.decode bytes with
  | .ok text => return (text, after)
  | .error fault => .error (.lex (.undecodable place fault) c.mark.index)

def uriParts (place : LexPlace) : Nat → Cursor → Except Halt (List Char × Cursor)
  | 0, c => .ok ([], c)
  | fuel + 1, c => do
    let (plain, afterPlain) := c.span isUriChar
    if afterPlain.peek == '%' then
      let (escaped, afterEscapes) ← uriEscapes place afterPlain
      let (more, after) ← uriParts place fuel afterEscapes
      return (plain ++ escaped ++ more, after)
    else return (plain, afterPlain)

def readUri (place uriPlace : LexPlace) (c : Cursor) : Except Halt (String × Cursor) := do
  let (text, after) ← uriParts place (c.rest.length + 1) c
  if after.mark.index == c.mark.index then expected uriPlace .uri after.peek after
  else return (String.ofList text, after)

/-- A handle: `!`, `!!` or a name between exclamation marks. -/
def readHandle (place : LexPlace) (c : Cursor) : Except Halt (String × Cursor) :=
  if c.peek != '!' then expected place .handleMark c.peek c
  else if c.peekAt 1 == ' ' then .ok ("!", c.skip)
  else
    let (name, after) := c.skip.span isNameChar
    if after.peek == '!' then .ok (String.ofList ('!' :: name ++ ['!']), after.skip)
    else expected place .handleMark after.peek after

def hasHandle (cs : List Char) : Bool :=
  (cs.takeWhile fun c => !endsWord c).contains '!'

/-- A tag. `!<…>` is a whole address, `!` alone is the non-specific tag, and otherwise there is a
handle and a suffix. -/
def readTag (c : Cursor) : Except Halt (Token × Cursor) := do
  let next := c.peekAt 1
  let (kind, after) ←
    if next == '<' then do
      let (uri, close) ← readUri .tag .tagUri (c.advance 2)
      if close.peek == '>' then pure (TokenKind.tag none uri, close.skip)
      else expected .tagUri .closingAngle close.peek close
    else if isGap next then pure (TokenKind.tag none "!", c.skip)
    else if hasHandle (c.rest.drop 1) then do
      let (handle, body) ← readHandle .tag c
      let (suffix, after) ← readUri .tag .tagUri body
      pure (TokenKind.tag (some handle) suffix, after)
    else do
      let (suffix, after) ← readUri .tag .tagUri c.skip
      pure (TokenKind.tag (some "!") suffix, after)
  if endsWord after.peek then return (⟨kind, c.mark, after.mark⟩, after)
  else expected .tag .space after.peek after

/-! ## Directives -/

def readVersionNumber (c : Cursor) : Except Halt (Nat × Cursor) :=
  let (digits, after) := c.span Text.isAsciiDigit
  if digits.isEmpty then expected .directive .digit c.peek c
  else if digits.length > Numeral.maxDecimalDigits then .error .longNumeral
  else .ok (Text.ofDigits 10 0 (digits.map fun d => d.toNat - '0'.toNat), after)

def readVersion (c : Cursor) : Except Halt (Directive × Cursor) := do
  let (major, point) ← readVersionNumber c.skipSpaces
  if point.peek != '.' then expected .directive .digitOrPoint point.peek point
  else
    let (minor, after) ← readVersionNumber point.skip
    if endsWord after.peek then return (.version major minor, after)
    else expected .directive .digitOrSpace after.peek after

def readTagDirective (c : Cursor) : Except Halt (Directive × Cursor) := do
  let (handle, gap) ← readHandle .directive c.skipSpaces
  if gap.peek != ' ' then expected .directive .space gap.peek gap
  else
    let (replacement, after) ← readUri .directive .directiveUri gap.skipSpaces
    if endsWord after.peek then return (.tag handle replacement, after)
    else expected .directive .space after.peek after

/-- The rest of a line that may hold a comment only, and its break. -/
def finishLine (place : LexPlace) (c : Cursor) : Except Halt Cursor :=
  let after := c.skipSpaces.skipComment
  if endsLine after.peek then .ok after.lineBreak.2
  else expected place .commentOrBreak after.peek after

/-- A directive and the rest of its line; the token ends before what follows it on the line. -/
def readDirective (c : Cursor) : Except Halt (Token × Cursor) := do
  let (name, afterName) ← readName .directive endsWord c.skip
  let (directive, after) ←
    if name == "YAML" then readVersion afterName
    else if name == "TAG" then readTagDirective afterName
    else pure (Directive.other name, afterName)
  let lineEnd := match directive with
    | .other _ => after.skipWhile fun a => !isBreak a
    | _ => after
  let next ← finishLine .directive lineEnd
  return (⟨.directive directive, c.mark, after.mark⟩, next)

end Yaml
end YamlServer
