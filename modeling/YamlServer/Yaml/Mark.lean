/-!
# Marks and cursors

A mark is a place in a text: its index in characters, its line and its column. A cursor is a mark
together with the characters from there on. Lines end at a line feed, a carriage return (one break
together with a line feed after it), a next-line character, and the two Unicode separators; a byte
order mark has no width.

* `Cursor.peek`: the character some places ahead. The end of the text reads as the null character,
  which no permitted text holds.
* `Cursor.skip`, `Cursor.advance`: moving on by one or more characters.
-/

namespace YamlServer
namespace Yaml

structure Mark where
  index : Nat
  line : Nat
  column : Nat
deriving Repr, DecidableEq, Inhabited

def endChar : Char := Char.ofNat 0

def byteOrderMark : Char := Char.ofNat 0xfeff

/-! ## Character classes -/

def isBreak (c : Char) : Bool :=
  c == '\n' || c == '\r' || c.toNat == 0x85 || c.toNat == 0x2028 || c.toNat == 0x2029

def endsLine (c : Char) : Bool :=
  c == endChar || isBreak c

def endsWord (c : Char) : Bool :=
  c == ' ' || endsLine c

def isGap (c : Char) : Bool :=
  c == '\t' || endsWord c

def isSpaceTab (c : Char) : Bool :=
  c == ' ' || c == '\t'

def isNameChar (c : Char) : Bool :=
  ('0' ≤ c && c ≤ '9') || ('A' ≤ c && c ≤ 'Z') || ('a' ≤ c && c ≤ 'z') || c == '-' || c == '_'

/-! ## Moving through a text -/

/-- The mark after a character, `next` being the one that follows it. -/
def Mark.after (m : Mark) (c next : Char) : Mark :=
  if c == '\r' && next == '\n' then ⟨m.index + 1, m.line, m.column + 1⟩
  else if isBreak c then ⟨m.index + 1, m.line + 1, 0⟩
  else if c == byteOrderMark then ⟨m.index + 1, m.line, m.column⟩
  else ⟨m.index + 1, m.line, m.column + 1⟩

structure Cursor where
  rest : List Char
  mark : Mark
deriving Repr, DecidableEq, Inhabited

namespace Cursor

def ofText (cs : List Char) : Cursor :=
  ⟨cs, ⟨0, 0, 0⟩⟩

def peekAt (c : Cursor) (k : Nat) : Char :=
  c.rest.getD k endChar

def peek (c : Cursor) : Char :=
  c.rest.headD endChar

/-- Move past one character; at the end, stay. -/
def skip (c : Cursor) : Cursor :=
  match c.rest with
  | [] => c
  | a :: rest => ⟨rest, c.mark.after a (rest.headD endChar)⟩

def advance : Nat → Cursor → Cursor
  | 0, c => c
  | n + 1, c => advance n c.skip

def skipWhileFrom (p : Char → Bool) : List Char → Mark → Cursor
  | [], m => ⟨[], m⟩
  | a :: rest, m =>
    if p a then skipWhileFrom p rest (m.after a (rest.headD endChar)) else ⟨a :: rest, m⟩

def skipWhile (p : Char → Bool) (c : Cursor) : Cursor :=
  skipWhileFrom p c.rest c.mark

/-- The characters from the cursor on that satisfy `p`, and the cursor after them. -/
def span (p : Char → Bool) (c : Cursor) : List Char × Cursor :=
  (c.rest.takeWhile p, c.skipWhile p)

def skipSpaces (c : Cursor) : Cursor :=
  c.skipWhile (· == ' ')

/-- Move past a comment that starts here, up to the end of its line. -/
def skipComment (c : Cursor) : Cursor :=
  if c.peek == '#' then c.skipWhile (fun a => !isBreak a) else c

/-- Move past a line break. Gives the break as a scalar keeps it: the Unicode separators as they
are, any other as a line feed, and nothing when there is none. -/
def lineBreak (c : Cursor) : List Char × Cursor :=
  let a := c.peek
  if a == '\r' && c.peekAt 1 == '\n' then (['\n'], c.advance 2)
  else if a == '\r' || a == '\n' || a.toNat == 0x85 then (['\n'], c.skip)
  else if isBreak a then ([a], c.skip)
  else ([], c)

/-- Whether three characters `a` stand here with a gap after them: the mark of a document's start
or end. -/
def atSeparator (a : Char) (c : Cursor) : Bool :=
  c.peek == a && c.peekAt 1 == a && c.peekAt 2 == a && isGap (c.peekAt 3)

def atDocumentMark (c : Cursor) : Bool :=
  c.atSeparator '-' || c.atSeparator '.'

end Cursor
end Yaml
end YamlServer
