import YamlServer.Yaml.Token.Name

/-!
# Block scalars

Literal and folded scalars: a header with a chomping mark and an indentation, then the lines that
are indented at least that far. The end of the text is decided by the chomping: keep all breaks at
the end, keep one, or strip it. In a folded scalar a single break between two lines that start
with a word becomes a space.

* `readBlock`: the whole scalar; the cursor is at its indicator.
-/

namespace YamlServer
namespace Yaml

inductive Chomping where
  | clip
  | strip
  | keep
deriving Repr, DecidableEq

def readChomping? (c : Cursor) : Option (Chomping × Cursor) :=
  if c.peek == '+' then some (.keep, c.skip)
  else if c.peek == '-' then some (.strip, c.skip)
  else none

def readIncrement (c : Cursor) : Except Halt (Option Nat × Cursor) :=
  if Text.isAsciiDigit c.peek then
    if c.peek == '0' then .error (.lex .zeroIndentation c.mark.index)
    else .ok (some (c.peek.toNat - '0'.toNat), c.skip)
  else .ok (none, c)

/-- The chomping and the indentation digit after the indicator, in either order. -/
def readHeader (c : Cursor) : Except Halt (Chomping × Option Nat × Cursor) := do
  let (chomping, increment, after) ←
    match readChomping? c with
    | some (chomping, next) => do
      let (increment, after) ← readIncrement next
      pure (chomping, increment, after)
    | none => do
      let (increment, next) ← readIncrement c
      match increment, readChomping? next with
      | some _, some (chomping, after) => pure (chomping, increment, after)
      | _, _ => pure (Chomping.clip, increment, next)
  if endsWord after.peek then return (chomping, increment, after)
  else expected .blockScalar .blockIndicators after.peek after

/-- The blank lines before the first line of a scalar whose indentation is not given: their breaks,
the widest column seen, the mark after the last break, and the cursor after the blanks. -/
def leadingBreaks : Nat → Nat → Mark → Cursor → List Char × Nat × Mark × Cursor
  | 0, widest, stop, c => ([], widest, stop, c)
  | fuel + 1, widest, stop, c =>
    if c.peek == ' ' then
      let next := c.skip
      leadingBreaks fuel (max widest next.mark.column) stop next
    else if isBreak c.peek then
      let (b, next) := c.lineBreak
      let (more, widest, stop, after) := leadingBreaks fuel widest next.mark next
      (b ++ more, widest, stop, after)
    else ([], widest, stop, c)

def skipIndent (indent : Nat) : Nat → Cursor → Cursor
  | 0, c => c
  | fuel + 1, c =>
    if c.mark.column < indent && c.peek == ' ' then skipIndent indent fuel c.skip else c

/-- The breaks of blank lines, the mark after the last one, and the cursor at the indentation of
the next line. -/
def blockBreaks (indent : Nat) : Nat → Mark → Cursor → List Char × Mark × Cursor
  | 0, stop, c => ([], stop, c)
  | fuel + 1, stop, c =>
    let line := skipIndent indent indent c
    if isBreak line.peek then
      let (b, next) := line.lineBreak
      let (more, stop, after) := blockBreaks indent fuel next.mark next
      (b ++ more, stop, after)
    else ([], stop, line)

structure BlockText where
  content : List Char
  lastBreak : List Char
  breaks : List Char
  stop : Mark
  after : Cursor
deriving Repr

/-- The lines from the cursor on; `breaks` are the blank lines before them. -/
def blockLines (folded : Bool) (indent : Nat) :
    Nat → List Char → List Char → Mark → Cursor → BlockText
  | 0, lastBreak, breaks, stop, c => ⟨[], lastBreak, breaks, stop, c⟩
  | fuel + 1, lastBreak, breaks, stop, c =>
    if c.mark.column == indent && c.peek != endChar then
      let (line, lineEnd) := c.span fun a => !endsLine a
      let (b, next) := lineEnd.lineBreak
      let (more, stop', after) := blockBreaks indent (next.rest.length + 1) next.mark next
      let joint :=
        if after.mark.column == indent && after.peek != endChar then
          if folded && b == ['\n'] && !isSpaceTab c.peek && !isSpaceTab after.peek then
            if more.isEmpty then [' '] else []
          else b
        else []
      let rest := blockLines folded indent fuel b more stop' after
      { rest with content := breaks ++ line ++ joint ++ rest.content }
    else ⟨[], lastBreak, breaks, stop, c⟩

/-- A block scalar; the cursor is at its indicator and `parent` is the indentation around it. -/
def readBlock (folded : Bool) (parent : Int) (c : Cursor) : Except Halt (Token × Cursor) := do
  let (chomping, increment, header) ← readHeader c.skip
  let body ← finishLine .blockScalar header
  let least := (max (parent + 1) 1).toNat
  let (indent, breaks, stop, first) :=
    match increment with
    | none =>
      let (breaks, widest, stop, first) := leadingBreaks (body.rest.length + 1) 0 body.mark body
      (max least widest, breaks, stop, first)
    | some n =>
      let indent := least + n - 1
      let (breaks, stop, first) := blockBreaks indent (body.rest.length + 1) body.mark body
      (indent, breaks, stop, first)
  let text := blockLines folded indent (first.rest.length + 1) [] breaks stop first
  let ending := match chomping with
    | .strip => []
    | .clip => text.lastBreak
    | .keep => text.lastBreak ++ text.breaks
  let style := if folded then Style.folded else Style.literal
  let content := String.ofList (text.content ++ ending)
  return (⟨.scalar content (some style), c.mark, text.stop⟩, text.after)

end Yaml
end YamlServer
