import YamlServer.Number.Numeral
import YamlServer.Value

/-!
# Scalars of settings files

The values without parts of a TOML text, and its keys: the four kinds of strings, numbers, dates and
times. Every reader takes the text from its first character on and gives the value and what follows.

* `Toml.readString`: a string, by its quotes.
* `Toml.readNumber?`: integers in four bases, and floating-point numbers.
* `Toml.readMoment?`: dates, times, and both together.
-/

namespace YamlServer
namespace Toml

open Text

/-- Why a text is refused: it breaks the grammar, or holds an integer that is too long. -/
inductive Fault where
  | malformed
  | longNumeral
deriving Repr, DecidableEq

/-! ## Blanks and comments -/

def isSpace (c : Char) : Bool :=
  c == ' ' || c == '\t'

def isSpaceOrFeed (c : Char) : Bool :=
  isSpace c || c == '\n'

/-- Control characters, of which only the tab may stand in a text. -/
def isControl (c : Char) : Bool :=
  (c.toNat < 32 && c != '\t') || c.toNat == 127

def skipComment (cs : List Char) : Except Fault (List Char) :=
  match cs with
  | '#' :: rest =>
    if (rest.takeWhile (· != '\n')).any isControl then .error .malformed
    else .ok (rest.dropWhile (· != '\n'))
  | _ => .ok cs

def skipGap : Nat → List Char → Except Fault (List Char)
  | 0, cs => .ok cs
  | fuel + 1, cs => do
    let after ← skipComment (cs.dropWhile isSpaceOrFeed)
    if after.length == cs.length then return cs else skipGap fuel after

/-! ## Strings -/

def startsWith (start cs : List Char) : Bool :=
  start.isPrefixOf cs

def splitAt? (mark : List Char) : List Char → Option (List Char × List Char)
  | [] => none
  | c :: rest =>
    if startsWith mark (c :: rest) then some ([], (c :: rest).drop mark.length)
    else (splitAt? mark rest).map fun (before, after) => (c :: before, after)

def readLiteral (cs : List Char) : Except Fault (List Char × List Char) :=
  match splitAt? ['\''] cs with
  | some (content, rest) => if content.any isControl then .error .malformed else .ok (content, rest)
  | none => .error .malformed

def readCodePoint (width : Nat) (cs : List Char) : Except Fault (Char × List Char) :=
  let digits := cs.take width
  if digits.length == width && digits.all isHexDigit then
    let n := ofHex digits
    if n.isValidChar then .ok (Char.ofNat n, cs.drop width) else .error .malformed
  else .error .malformed

def escape? (c : Char) : Option Char :=
  match c with
  | 'b' => some '\x08'
  | 't' => some '\t'
  | 'n' => some '\n'
  | 'f' => some '\x0c'
  | 'r' => some '\r'
  | '"' => some '"'
  | '\\' => some '\\'
  | _ => none

/-- What follows a backslash at the end of a line: all blanks and line feeds are skipped. Only
blanks may stand before the line feed. -/
def skipContinuation (cs : List Char) : Except Fault (List Char) :=
  match cs.dropWhile isSpace with
  | [] => .ok []
  | '\n' :: rest => .ok (rest.dropWhile isSpaceOrFeed)
  | _ => .error .malformed

def readEscape (multiline : Bool) (cs : List Char) : Except Fault (List Char × List Char) :=
  match cs with
  | [] => .error .malformed
  | c :: rest =>
    if multiline && isSpaceOrFeed c then do
      let after ← skipContinuation cs
      return ([], after)
    else if c == 'u' || c == 'U' then do
      let (decoded, after) ← readCodePoint (if c == 'u' then 4 else 8) rest
      return ([decoded], after)
    else
      match escape? c with
      | some decoded => .ok ([decoded], rest)
      | none => .error .malformed

def readBasic (multiline : Bool) : Nat → List Char → Except Fault (List Char × List Char)
  | 0, _ => .error .malformed
  | fuel + 1, cs =>
    match cs with
    | [] => .error .malformed
    | c :: rest =>
      if c == '"' && !multiline then .ok ([], rest)
      else if c == '"' && startsWith ['"', '"', '"'] cs then .ok ([], cs.drop 3)
      else if c == '\\' then do
        let (decoded, after) ← readEscape multiline rest
        let (more, after) ← readBasic multiline fuel after
        return (decoded ++ more, after)
      else if isControl c && !(multiline && c == '\n') then .error .malformed
      else do
        let (more, after) ← readBasic multiline fuel rest
        return (c :: more, after)

/-- Up to two more quotes at the end of a string over several lines belong to it. -/
def takeQuotes (quote : Char) (content cs : List Char) : List Char × List Char :=
  let quotes := (cs.take 2).takeWhile (· == quote)
  (content ++ quotes, cs.drop quotes.length)

/-- A string over several lines, after the opening quotes; a line feed right after them does not
count. -/
def readMultiline (quote : Char) (cs : List Char) : Except Fault (List Char × List Char) := do
  let cs := if cs.head? == some '\n' then cs.drop 1 else cs
  if quote == '"' then
    let (content, rest) ← readBasic true (cs.length + 1) cs
    return takeQuotes quote content rest
  else
    match splitAt? ['\'', '\'', '\''] cs with
    | some (content, rest) =>
      if content.any fun c => isControl c && c != '\n' then .error .malformed
      else return takeQuotes quote content rest
    | none => .error .malformed

def readString (quote : Char) (cs : List Char) : Except Fault (List Char × List Char) :=
  if startsWith [quote, quote, quote] cs then readMultiline quote (cs.drop 3)
  else if quote == '"' then readBasic false (cs.length + 1) (cs.drop 1)
  else readLiteral (cs.drop 1)

/-! ## Numbers -/

/-- Digits that may be grouped by single underscores, and what follows them; at least one. -/
def digitRun (isDigit : Char → Bool) : List Char → List Char × List Char
  | '_' :: c :: rest =>
    if isDigit c then
      let (ds, after) := digitRun isDigit rest
      (c :: ds, after)
    else ([], '_' :: c :: rest)
  | c :: rest =>
    if isDigit c then
      let (ds, after) := digitRun isDigit rest
      (c :: ds, after)
    else ([], c :: rest)
  | [] => ([], [])

def digitRun? (isDigit : Char → Bool) (cs : List Char) : Option (List Char × List Char) :=
  match cs with
  | c :: _ => if isDigit c then some (digitRun isDigit cs) else none
  | [] => none

def readMarked? : List Char → Option (Value × List Char)
  | '0' :: mark :: rest =>
    let base := match mark with
      | 'x' => 16
      | 'o' => 8
      | 'b' => 2
      | _ => 0
    (digitRun? (Numeral.isDigitOf base) rest).map fun (ds, after) =>
      (.int (Int.ofNat (ofDigits base 0 (ds.map fun c => (alnumDigit? c).getD 0))), after)
  | _ => none

/-- The whole part of a decimal number: a zero, or digits that do not start with one. -/
def wholePart? (cs : List Char) : Option (List Char × List Char) :=
  match cs with
  | '0' :: rest => some (['0'], rest)
  | _ => digitRun? isAsciiDigit cs

/-- A fraction, if there is one: a point and digits. -/
def fractionPart (cs : List Char) : Option (List Char) × List Char :=
  match cs with
  | '.' :: rest =>
    match digitRun? isAsciiDigit rest with
    | some (ds, after) => (some ds, after)
    | none => (none, cs)
  | _ => (none, cs)

def decimalNat (ds : List Char) : Nat :=
  ofDigits 10 0 (ds.map fun c => c.toNat - '0'.toNat)

/-- An exponent, if there is one: its letter, a sign that may be left out, and digits. -/
def exponentPart (cs : List Char) : Option Int × List Char :=
  match cs with
  | e :: rest =>
    if e == 'e' || e == 'E' then
      let (negative, digits) := Numeral.splitSign rest
      match digitRun? isAsciiDigit digits with
      | some (ds, after) =>
        let n := Int.ofNat (decimalNat ds)
        (some (if negative then -n else n), after)
      | none => (none, cs)
    else (none, cs)
  | [] => (none, cs)

/-- A decimal number: an integer unless it has a fraction or an exponent. -/
def readDecimal? (cs : List Char) : Option (Except Fault (Value × List Char)) := do
  let (negative, digits) := Numeral.splitSign cs
  let (whole, rest) ← wholePart? digits
  let (fraction, rest) := fractionPart rest
  let (exponent, rest) := exponentPart rest
  if fraction.isNone && exponent.isNone then
    if whole.length > Numeral.maxDecimalDigits then return .error .longNumeral
    else
      let n := Int.ofNat (decimalNat whole)
      return .ok (.int (if negative then -n else n), rest)
  else
    let places := fraction.getD []
    let e := exponent.getD 0 - Int.ofNat places.length
    return .ok (.float (Binary64.ofDecimal negative (decimalNat (whole ++ places)) e), rest)

/-- A number; none if there is no number here. -/
def readNumber? (cs : List Char) : Option (Except Fault (Value × List Char)) :=
  match readMarked? cs with
  | some r => some (.ok r)
  | none => readDecimal? cs

def readSpecial? (cs : List Char) : Option (Value × List Char) :=
  let (negative, rest) := Numeral.splitSign cs
  if startsWith "inf".toList rest then some (.float (.infinite negative), rest.drop 3)
  else if startsWith "nan".toList rest then some (.float .nan, rest.drop 3)
  else none

/-! ## Dates and times -/

/-- A number of `width` digits between two bounds, and what follows it. -/
def bounded? (width least most : Nat) (cs : List Char) : Option (Nat × List Char) :=
  let ds := cs.take width
  if ds.length == width && ds.all isAsciiDigit then
    let n := decimalNat ds
    if least ≤ n && n ≤ most then some (n, cs.drop width) else none
  else none

def char? (c : Char) : List Char → Option (List Char)
  | a :: rest => if a == c then some rest else none
  | [] => none

/-- A date; the day is not yet compared with the length of the month. -/
def readDate? (cs : List Char) : Option (Date × List Char) := do
  let (year, rest) ← bounded? 4 0 9999 cs
  let (month, rest) ← bounded? 2 1 12 (← char? '-' rest)
  let (day, rest) ← bounded? 2 1 31 (← char? '-' rest)
  return (⟨year, month, day⟩, rest)

def micros (ds : List Char) : Nat :=
  let first := ds.take 6
  decimalNat (first ++ List.replicate (6 - first.length) '0')

/-- A time of day; digits of a second beyond the sixth do not count. -/
def readClock? (cs : List Char) : Option (Clock × List Char) := do
  let (hour, rest) ← bounded? 2 0 23 cs
  let (minute, rest) ← bounded? 2 0 59 (← char? ':' rest)
  let (second, rest) ← bounded? 2 0 59 (← char? ':' rest)
  match rest with
  | '.' :: more =>
    let ds := more.takeWhile isAsciiDigit
    if ds.isEmpty then return (⟨hour, minute, second, 0⟩, rest)
    else return (⟨hour, minute, second, micros ds⟩, more.drop ds.length)
  | _ => return (⟨hour, minute, second, 0⟩, rest)

def readOffset (cs : List Char) : Option Int × List Char :=
  match cs with
  | [] => (none, cs)
  | c :: rest =>
    if c == 'Z' || c == 'z' then (some 0, rest)
    else if c == '+' || c == '-' then
      let offset? : Option (Int × List Char) := do
        let (hours, rest) ← bounded? 2 0 23 rest
        let (minutes, rest) ← bounded? 2 0 59 (← char? ':' rest)
        let seconds := Int.ofNat (hours * 3600 + minutes * 60)
        return (if c == '-' then -seconds else seconds, rest)
      match offset? with
      | some (o, after) => (some o, after)
      | none => (none, cs)
    else (none, cs)

def readDateTime (d : Date) (cs : List Char) : Moment × List Char :=
  match cs with
  | gap :: rest =>
    if gap == 'T' || gap == 't' || gap == ' ' then
      match readClock? rest with
      | some (t, after) =>
        let (offset, after) := readOffset after
        (.dateTime d t offset, after)
      | none => (.date d, cs)
    else (.date d, cs)
  | [] => (.date d, cs)

/-- A date, a time, or both; none if there is neither here. A date must be one of the calendar. -/
def readMoment? (cs : List Char) : Option (Except Fault (Value × List Char)) :=
  match readDate? cs with
  | some (d, rest) =>
    let (m, after) := readDateTime d rest
    some (if d.isValid then .ok (.moment m, after) else .error .malformed)
  | none => (readClock? cs).map fun (t, after) => .ok (.moment (.clock t), after)

end Toml
end YamlServer
