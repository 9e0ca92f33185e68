import YamlServer.Number.Binary64
import YamlServer.Text.Blank
import YamlServer.Text.Digit

/-!
# Numerals

Reading integers and floating-point numbers from text. Blanks around a numeral do not count,
decimal digits may come from any script, single underscores may stand between digits, and a sign
may come first.

* `Numeral.int?`: an integer in a base. The bases 2, 8 and 16 may repeat their mark (`0b`, `0o`,
  `0x`) after the sign.
* `Numeral.float?`: a decimal numeral with an optional fraction and exponent, an infinity, or a
  not-a-number.
-/

namespace YamlServer
namespace Numeral

open Text

def asciiDigits (cs : List Char) : List Char :=
  cs.map fun c =>
    match decimalDigit? c with
    | some d => Char.ofNat ('0'.toNat + d)
    | none => c

/-- What may stand around a numeral: the blanks without the information separators. -/
def isPadding (c : Char) : Bool :=
  isBlank c && !(0x1c ≤ c.toNat && c.toNat ≤ 0x1f)

def normal (cs : List Char) : List Char :=
  asciiDigits (dropEndWhile isPadding (cs.dropWhile isPadding))

def splitSign : List Char → Bool × List Char
  | '-' :: rest => (true, rest)
  | '+' :: rest => (false, rest)
  | cs => (false, cs)

/-- Remove single underscores between digits; a doubled one, or one at an end, is refused. -/
def joinGroups (isDigit : Char → Bool) : List Char → Option (List Char)
  | [] => some []
  | '_' :: _ => none
  | c :: '_' :: d :: rest =>
    if isDigit c && isDigit d then (joinGroups isDigit (d :: rest)).map (c :: ·) else none
  | c :: rest => if isDigit c then (joinGroups isDigit rest).map (c :: ·) else none

def isDigitOf (base : Nat) (c : Char) : Bool :=
  match alnumDigit? c with
  | some d => d < base
  | none => false

def maxDecimalDigits : Nat := 4300

def natural? (base : Nat) (cs : List Char) : Option Nat :=
  match joinGroups (isDigitOf base) cs with
  | none | some [] => none
  | some digits =>
    if base == 10 && digits.length > maxDecimalDigits then none
    else some (ofDigits base 0 (digits.map fun c => (alnumDigit? c).getD 0))

def baseMarks : Nat → List Char
  | 2 => ['b', 'B']
  | 8 => ['o', 'O']
  | 16 => ['x', 'X']
  | _ => []

def dropMark (base : Nat) : List Char → List Char
  | '0' :: c :: rest =>
    if (baseMarks base).contains c then
      match rest with
      | '_' :: digits => digits
      | digits => digits
    else '0' :: c :: rest
  | cs => cs

def int? (base : Nat) (cs : List Char) : Option Int :=
  let (negative, rest) := splitSign (normal cs)
  (natural? base (dropMark base rest)).map fun n =>
    if negative then -Int.ofNat n else Int.ofNat n

/-- Cut a list before the first element that satisfies `p`; the tail keeps that element. -/
def cutAt (p : Char → Bool) (cs : List Char) : List Char × List Char :=
  (cs.takeWhile fun c => !p c, cs.dropWhile fun c => !p c)

def digitGroup? (cs : List Char) : Option (List Char) :=
  joinGroups isAsciiDigit cs

def exponent? (cs : List Char) : Option Int :=
  let (negative, rest) := splitSign cs
  match digitGroup? rest with
  | none | some [] => none
  | some digits =>
    let n := ofDigits 10 0 (digits.map fun c => c.toNat - '0'.toNat)
    some (if negative then -Int.ofNat n else Int.ofNat n)

/-- A decimal numeral without its sign: digits, a fraction, an exponent. -/
def decimal? (negative : Bool) (cs : List Char) : Option Binary64 := do
  let (body, tail) := cutAt (fun c => c == 'e' || c == 'E') cs
  let exponent ← match tail with
    | [] => some 0
    | _ :: e => exponent? e
  let (whole, point) := cutAt (· == '.') body
  let intDigits ← digitGroup? whole
  let fracDigits ← match point with
    | [] => some []
    | _ :: f => digitGroup? f
  if intDigits.isEmpty && fracDigits.isEmpty then none
  else
    let n := ofDigits 10 0 ((intDigits ++ fracDigits).map fun c => c.toNat - '0'.toNat)
    some (Binary64.ofDecimal negative n (exponent - Int.ofNat fracDigits.length))

def asciiLower (cs : List Char) : List Char :=
  cs.map fun c => if 'A' ≤ c ∧ c ≤ 'Z' then Char.ofNat (c.toNat + 32) else c

def float? (cs : List Char) : Option Binary64 :=
  let (negative, rest) := splitSign (normal cs)
  let word := String.ofList (asciiLower rest)
  if word == "inf" || word == "infinity" then some (.infinite negative)
  else if word == "nan" then some .nan
  else decimal? negative rest

end Numeral
end YamlServer
