import YamlServer.Yaml.Token.Quoted

/-!
# Plain scalars

Scalars without quotes. A plain scalar ends at a comment, at a colon with a gap after it, in a flow
collection also at its indicators, at a tab, at a line that is indented less than its parent, and
at a document mark. Breaks inside it fold as in quoted scalars.

* `startsPlain`: whether a plain scalar can start at the cursor.
* `readPlain`: the whole scalar.
-/

namespace YamlServer
namespace Yaml

/-- Whether a plain scalar can start here. An indicator can start one only if it is `-`, or outside
flow collections `?` or `:`, with no gap after it. -/
def startsPlain (inFlow : Bool) (c : Cursor) : Bool :=
  let a := c.peek
  !(isGap a || "-?:,[]\x7b\x7d#&*!|>'\"%@`".toList.contains a) ||
    (!isGap (c.peekAt 1) && (a == '-' || (!inFlow && (a == '?' || a == ':'))))

/-- Whether a plain scalar's word ends at a character, `next` being the one after it. -/
def endsPlain (inFlow : Bool) (c next : Char) : Bool :=
  isGap c ||
    (c == ':' && (isGap next || (inFlow && ",[]\x7b\x7d".toList.contains next))) ||
    (inFlow && ",?[]\x7b\x7d".toList.contains c)

def plainWord (inFlow : Bool) : List Char → List Char
  | [] => []
  | c :: rest =>
    if endsPlain inFlow c (rest.headD endChar) then [] else c :: plainWord inFlow rest

/-- The breaks of blank lines between the lines of a plain scalar, and the cursor at the next word;
nothing if a document mark starts a line. -/
def plainBreaks : Nat → Cursor → Option (List Char) × Cursor
  | 0, c => (some [], c)
  | fuel + 1, c =>
    if c.peek == ' ' then plainBreaks fuel c.skip
    else if isBreak c.peek then
      let (b, next) := c.lineBreak
      if next.atDocumentMark then (none, next)
      else
        let (more, after) := plainBreaks fuel next
        (more.map (b ++ ·), after)
    else (some [], c)

/-- What separates two words of a plain scalar: the text it stands for, none if the scalar ends
here; whether a line break was passed; and the cursor after it. -/
def plainGap (c : Cursor) : List Char × Bool × Cursor :=
  let (blanks, next) := c.span (· == ' ')
  if isBreak next.peek then
    let (first, line) := next.lineBreak
    if line.atDocumentMark then ([], true, line)
    else
      match plainBreaks (line.rest.length + 1) line with
      | (some more, after) => (foldBreaks first more, true, after)
      | (none, after) => ([], true, after)
  else (blanks, false, next)

/-- What a plain scalar leaves behind: its text, its end, whether the last gap broke the line, and
the cursor. -/
structure PlainText where
  content : List Char
  stop : Mark
  brokeLine : Bool
  after : Cursor
deriving Repr

/-- The words from the cursor on; `gap` separates them from what was read before. -/
def plainWords (inFlow : Bool) (indent : Int) :
    Nat → List Char → Mark → Bool → Cursor → PlainText
  | 0, _, stop, broke, c => ⟨[], stop, broke, c⟩
  | fuel + 1, gap, stop, broke, c =>
    let word := plainWord inFlow c.rest
    if c.peek == '#' || word.isEmpty then ⟨[], stop, broke, c⟩
    else
      let wordEnd := c.advance word.length
      let (gap', broke', next) := plainGap wordEnd
      if gap'.isEmpty || next.peek == '#' || (!inFlow && Int.ofNat next.mark.column < indent) then
        ⟨gap ++ word, wordEnd.mark, broke', next⟩
      else
        let rest := plainWords inFlow indent fuel gap' wordEnd.mark broke' next
        { rest with content := gap ++ word ++ rest.content }

/-- A plain scalar, and whether a line break was passed after its last word. -/
def readPlain (inFlow : Bool) (parent : Int) (c : Cursor) : Token × Bool × Cursor :=
  let text := plainWords inFlow (parent + 1) (c.rest.length + 1) [] c.mark false c
  (⟨.scalar (String.ofList text.content) none, c.mark, text.stop⟩, text.brokeLine, text.after)

end Yaml
end YamlServer
