import YamlServer.Text.Blank

/-!
# Offsets, lines and columns

A text with its lines. Lines end at line feeds only, carriage returns before a line feed do not
belong to the content of a line, and offsets and columns count characters.

* `Lines.position`: the line and column of an offset, clamped to the text.
* `Lines.offset?`: the offset of a line and column, clamped to the end of the line. A negative line
  counts from the end, and there is no answer before the first line.
* `indentation`: the width of the blanks before a column.
-/

namespace YamlServer
namespace Text

/-- A text and the offsets at which its lines start; the first is zero. -/
structure Lines where
  text : List Char
  starts : List Nat
deriving Repr, DecidableEq

namespace Lines

/-- The offsets after the line feeds of a text that starts at `offset`. -/
def startsAfter (offset : Nat) : List Char → List Nat
  | [] => []
  | c :: rest =>
    if c == '\n' then (offset + 1) :: startsAfter (offset + 1) rest
    else startsAfter (offset + 1) rest

def ofChars (cs : List Char) : Lines :=
  ⟨cs, 0 :: startsAfter 0 cs⟩

def ofText (s : String) : Lines :=
  ofChars s.toList

def count (b : Lines) : Nat :=
  b.starts.length

def clamp (b : Lines) (offset : Int) : Nat :=
  min offset.toNat b.text.length

def lineAt (b : Lines) (offset : Nat) : Nat :=
  (b.starts.filter (· ≤ offset)).length - 1

def start (b : Lines) (line : Nat) : Nat :=
  b.starts.getD line b.text.length

def position (b : Lines) (offset : Int) : Nat × Nat :=
  let o := b.clamp offset
  let line := b.lineAt o
  (line, o - b.start line)

def stop (b : Lines) (line : Nat) : Nat :=
  match b.starts[line + 1]? with
  | some next => next - 1
  | none => b.text.length

/-- The content of a line of the text, without the carriage returns that end it. -/
def contentAt (b : Lines) (line : Nat) : List Char :=
  dropEndWhile (· == '\r') ((b.text.take (b.stop line)).drop (b.start line))

/-- The content of a line; a line that does not exist is empty. -/
def content (b : Lines) (line : Int) : List Char :=
  if line < 0 || line ≥ Int.ofNat b.count then [] else b.contentAt line.toNat

def offset? (b : Lines) (line column : Int) : Option Int :=
  if line ≥ Int.ofNat b.count then some (Int.ofNat b.text.length)
  else
    let index := if line < 0 then line + Int.ofNat b.count else line
    if index < 0 then none
    else
      let start := Int.ofNat (b.start index.toNat)
      some (min (start + column) (start + Int.ofNat (b.content line).length))

def endOffset? (b : Lines) (line : Int) : Option Int :=
  b.offset? line (Int.ofNat (b.content line).length)

end Lines

/-- The width of the blanks at the start of a line, looking no further than a column. It equals the
column exactly when all before the column is blank. -/
def indentation (line : List Char) (column : Int) : Int :=
  if Int.ofNat line.length < column - 1 then 0
  else
    let width := Int.ofNat (line.takeWhile fun c => c == ' ' || c == '\t').length
    min width column

end Text
end YamlServer
