import YamlServer.Yaml.Token.Name

/-!
# Quoted scalars

Scalars between single or double quotes. A single break inside becomes a space, more breaks keep
all but the first, and blanks around breaks are dropped. In single quotes a doubled quote stands
for one; in double quotes a backslash starts an escape.

* `readQuoted`: the whole scalar; the cursor is at the opening quote.
-/

namespace YamlServer
namespace Yaml

def simpleEscape? (c : Char) : Option Char :=
  match c with
  | '0' => some (Char.ofNat 0)
  | 'a' => some (Char.ofNat 0x7)
  | 'b' => some (Char.ofNat 0x8)
  | 't' => some '\t'
  | '\t' => some '\t'
  | 'n' => some '\n'
  | 'v' => some (Char.ofNat 0xb)
  | 'f' => some (Char.ofNat 0xc)
  | 'r' => some '\r'
  | 'e' => some (Char.ofNat 0x1b)
  | ' ' => some ' '
  | '"' => some '"'
  | '\\' => some '\\'
  | '/' => some '/'
  | 'N' => some (Char.ofNat 0x85)
  | '_' => some (Char.ofNat 0xa0)
  | 'L' => some (Char.ofNat 0x2028)
  | 'P' => some (Char.ofNat 0x2029)
  | _ => none

def escapeWidth? (c : Char) : Option Nat :=
  match c with
  | 'x' => some 2
  | 'u' => some 4
  | 'U' => some 8
  | _ => none

/-- The line breaks from the cursor on, with the blanks around them dropped. A document mark must
not start a line here. -/
def quotedBreaks : Nat → Cursor → Except Halt (List Char × Cursor)
  | 0, c => .ok ([], c)
  | fuel + 1, c =>
    if c.atDocumentMark then .error (.lex .documentMarkInQuotes c.mark.index)
    else
      let next := c.skipWhile isSpaceTab
      if isBreak next.peek then do
        let (b, line) := next.lineBreak
        let (more, after) ← quotedBreaks fuel line
        return (b ++ more, after)
      else .ok ([], next)

def foldBreaks (first more : List Char) : List Char :=
  if first != ['\n'] then first ++ more
  else if more.isEmpty then [' ']
  else more

/-- An escape in double quotes; the cursor is after the backslash. -/
def readEscape (c : Cursor) : Except Halt (List Char × Cursor) :=
  let a := c.peek
  match simpleEscape? a, escapeWidth? a with
  | some x, _ => .ok ([x], c.skip)
  | none, some width =>
    let digits := c.skip
    match (List.range width).find? fun k => !Text.isHexDigit (digits.peekAt k) with
    | some k => expected .doubleQuoted (.hexDigits width) (digits.peekAt k) digits
    | none =>
      let code := Text.ofHex (digits.rest.take width)
      if code < 0x110000 then .ok ([Char.ofNat code], digits.advance width)
      else .error (.codePoint code)
  | none, none =>
    if isBreak a then
      let line := c.lineBreak.2
      quotedBreaks (line.rest.length + 1) line
    else .error (.lex (.unknownEscape a) c.mark.index)

/-- A character of a quoted scalar that stands for itself and is no blank. -/
def isQuotedPlain (c : Char) : Bool :=
  !(c == '\'' || c == '"' || c == '\\' || isGap c)

/-- Blanks inside quotes: kept between words, folded around line breaks. -/
def readQuotedGap (c : Cursor) : Except Halt (List Char × Cursor) :=
  let (blanks, next) := c.span isSpaceTab
  if next.peek == endChar then .error (.lex .endInQuotes next.mark.index)
  else if isBreak next.peek then do
    let (first, line) := next.lineBreak
    let (more, after) ← quotedBreaks (line.rest.length + 1) line
    return (foldBreaks first more, after)
  else .ok (blanks, next)

def quotedContent (double : Bool) : Nat → Cursor → Except Halt (List Char × Cursor)
  | 0, c => .ok ([], c)
  | fuel + 1, c =>
    let a := c.peek
    let onwards (step : Except Halt (List Char × Cursor)) : Except Halt (List Char × Cursor) := do
      let (text, next) ← step
      let (more, after) ← quotedContent double fuel next
      return (text ++ more, after)
    if isQuotedPlain a then onwards (.ok (c.span isQuotedPlain))
    else if isGap a then onwards (readQuotedGap c)
    else if double then
      if a == '"' then .ok ([], c.skip)
      else if a == '\\' then onwards (readEscape c.skip)
      else onwards (.ok ([a], c.skip))
    else if a == '\'' then
      if c.peekAt 1 == '\'' then onwards (.ok (['\''], c.advance 2)) else .ok ([], c.skip)
    else onwards (.ok ([a], c.skip))

/-- A quoted scalar; the cursor is at its opening quote. -/
def readQuoted (double : Bool) (c : Cursor) : Except Halt (Token × Cursor) := do
  let body := c.skip
  let (content, after) ← quotedContent double (body.rest.length + 1) body
  let style := if double then Style.doubleQuoted else Style.singleQuoted
  return (⟨.scalar (String.ofList content) (some style), c.mark, after.mark⟩, after)

end Yaml
end YamlServer
