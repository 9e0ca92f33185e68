import YamlServer.Number.Numeral
import YamlServer.Value

/-!
# Reading JSON

JSON text as plain data. Members keep the order in which their names first came, and a repeated
name takes its last value. Beside the standard forms, `NaN`, `Infinity` and `-Infinity` are numbers.
A number with a fraction or an exponent is a floating-point number, any other an integer.

* `Json.parse`: the value of a whole text.
-/

namespace YamlServer
namespace Json

/-- Why a text is not read: it is not JSON, or an integer in it is too long. -/
inductive Fault where
  | malformed
  | longNumeral
deriving Repr, DecidableEq

def isSpace (c : Char) : Bool :=
  c == ' ' || c == '\t' || c == '\n' || c == '\r'

def skipSpace (cs : List Char) : List Char :=
  cs.dropWhile isSpace

/-! ## Strings -/

def codeUnit? (cs : List Char) : Option (Nat × List Char) :=
  let digits := cs.take 4
  if digits.length == 4 && digits.all Text.isHexDigit then some (Text.ofHex digits, cs.drop 4)
  else none

/-- The character of a `\u` escape; two escapes that are halves of a pair make one character. -/
def unicodeEscape? (cs : List Char) : Option (Char × List Char) := do
  let (high, rest) ← codeUnit? cs
  if 0xd800 ≤ high && high < 0xdc00 then
    match rest with
    | '\\' :: 'u' :: more =>
      match codeUnit? more with
      | some (low, after) =>
        if 0xdc00 ≤ low && low < 0xe000 then
          some (Char.ofNat (0x10000 + (high - 0xd800) * 0x400 + (low - 0xdc00)), after)
        else some (Char.ofNat high, rest)
      | none => some (Char.ofNat high, rest)
    | _ => some (Char.ofNat high, rest)
  else some (Char.ofNat high, rest)

def escape? (c : Char) : Option Char :=
  match c with
  | '"' => some '"'
  | '\\' => some '\\'
  | '/' => some '/'
  | 'b' => some (Char.ofNat 8)
  | 'f' => some (Char.ofNat 12)
  | 'n' => some '\n'
  | 'r' => some '\r'
  | 't' => some '\t'
  | _ => none

/-- The rest of a string after its opening quote; `acc` holds what was read, backwards. -/
def readString (acc : List Char) : Nat → List Char → Except Fault (String × List Char)
  | 0, _ => .error .malformed
  | _ + 1, [] => .error .malformed
  | fuel + 1, c :: rest =>
    if c == '"' then .ok (String.ofList acc.reverse, rest)
    else if c == '\\' then
      match rest with
      | 'u' :: digits =>
        match unicodeEscape? digits with
        | some (x, after) => readString (x :: acc) fuel after
        | none => .error .malformed
      | e :: after =>
        match escape? e with
        | some x => readString (x :: acc) fuel after
        | none => .error .malformed
      | [] => .error .malformed
    else if c.toNat < 0x20 then .error .malformed
    else readString (c :: acc) fuel rest

/-! ## Numbers -/

/-- The fraction of a number: a point with digits after it, or nothing. -/
def splitFraction : List Char → Option (List Char) × List Char
  | '.' :: rest =>
    let digits := rest.takeWhile Text.isAsciiDigit
    if digits.isEmpty then (none, '.' :: rest) else (some digits, rest.drop digits.length)
  | cs => (none, cs)

def splitExponent : List Char → Option Int × List Char
  | c :: rest =>
    if c == 'e' || c == 'E' then
      let (negative, tail) := Numeral.splitSign rest
      let digits := tail.takeWhile Text.isAsciiDigit
      if digits.isEmpty then (none, c :: rest)
      else
        let n := Text.ofDigits 10 0 (digits.map fun d => d.toNat - '0'.toNat)
        (some (if negative then -Int.ofNat n else Int.ofNat n), tail.drop digits.length)
    else (none, c :: rest)
  | [] => (none, [])

/-- The digits of a whole number: a zero alone, or digits that start with another one. -/
def wholeDigits : List Char → List Char
  | '0' :: _ => ['0']
  | cs => cs.takeWhile Text.isAsciiDigit

def readNumber (cs : List Char) : Except Fault (Value × List Char) :=
  let negative := cs.head? == some '-'
  let unsigned := if negative then cs.drop 1 else cs
  let whole := wholeDigits unsigned
  if whole.isEmpty then
    if (String.ofList (unsigned.take 8)) == "Infinity" then
      .ok (.float (.infinite negative), unsigned.drop 8)
    else if !negative && (String.ofList (cs.take 3)) == "NaN" then .ok (.float .nan, cs.drop 3)
    else .error .malformed
  else
    let digits := fun (ds : List Char) => Text.ofDigits 10 0 (ds.map fun d => d.toNat - '0'.toNat)
    let (fraction, afterFraction) := splitFraction (unsigned.drop whole.length)
    let (exponent, after) := splitExponent afterFraction
    match fraction, exponent with
    | none, none =>
      if whole.length > Numeral.maxDecimalDigits then .error .longNumeral
      else
        let n := digits whole
        .ok (.int (if negative then -Int.ofNat n else Int.ofNat n), after)
    | _, _ =>
      let places := fraction.getD []
      let power := exponent.getD 0 - Int.ofNat places.length
      .ok (.float (Binary64.ofDecimal negative (digits (whole ++ places)) power), after)

/-! ## Values -/

def readWord (word : String) (v : Value) (cs : List Char) : Except Fault (Value × List Char) :=
  if word.toList.isPrefixOf cs then .ok (v, cs.drop word.length) else .error .malformed

mutual

/-- A value; no space stands before it. -/
def readValue : Nat → List Char → Except Fault (Value × List Char)
  | 0, _ => .error .malformed
  | fuel + 1, cs =>
    match cs with
    | '"' :: rest => (readString [] (rest.length + 1) rest).map fun (s, after) => (.str s, after)
    | '[' :: rest =>
      match skipSpace rest with
      | ']' :: after => .ok (.list [], after)
      | items => (readItems fuel items).map fun (xs, after) => (.list xs, after)
    | '\x7b' :: rest =>
      match skipSpace rest with
      | '\x7d' :: after => .ok (.map [], after)
      | members => (readMembers fuel [] members).map fun (es, after) => (.map es, after)
    | 'n' :: _ => readWord "null" .null cs
    | 't' :: _ => readWord "true" (.bool true) cs
    | 'f' :: _ => readWord "false" (.bool false) cs
    | _ => readNumber cs

def readItems : Nat → List Char → Except Fault (List Value × List Char)
  | 0, _ => .error .malformed
  | fuel + 1, cs => do
    let (x, rest) ← readValue fuel cs
    match skipSpace rest with
    | ']' :: after => return ([x], after)
    | ',' :: more =>
      let (xs, after) ← readItems fuel (skipSpace more)
      return (x :: xs, after)
    | _ => .error .malformed

/-- The members of an object up to its closing brace; `acc` holds the earlier ones. -/
def readMembers : Nat → List (Value × Value) → List Char →
    Except Fault (List (Value × Value) × List Char)
  | 0, _, _ => .error .malformed
  | fuel + 1, acc, cs =>
    match cs with
    | '"' :: rest => do
      let (name, afterName) ← readString [] (rest.length + 1) rest
      match skipSpace afterName with
      | ':' :: afterColon =>
        let (v, afterValue) ← readValue fuel (skipSpace afterColon)
        let members := Value.put (.str name) v acc
        match skipSpace afterValue with
        | '\x7d' :: after => return (members, after)
        | ',' :: more => readMembers fuel members (skipSpace more)
        | _ => .error .malformed
      | _ => .error .malformed
    | _ => .error .malformed

end

def parse (cs : List Char) : Except Fault Value := do
  let start := skipSpace cs
  let (v, rest) ← readValue (2 * start.length + 2) start
  if (skipSpace rest).isEmpty then return v else .error .malformed

end Json
end YamlServer
