import YamlServer.Text.Digit

/-!
# Tags

The tags of the standard types, and the type that a scalar without a tag has by its text: truth
values, floating-point numbers, integers, the merge key, null, timestamps, the default-value key,
and text for everything else. A line feed at the very end of the text does not count.

* `Tag.implicit`: the tag of a scalar's text.
-/

namespace YamlServer
namespace Yaml
namespace Tag

open Text

def standard (name : String) : String :=
  "tag:yaml.org,2002:" ++ name

def null : String := standard "null"
def bool : String := standard "bool"
def int : String := standard "int"
def float : String := standard "float"
def str : String := standard "str"
def seq : String := standard "seq"
def map : String := standard "map"
def merge : String := standard "merge"
def timestamp : String := standard "timestamp"
def value : String := standard "value"

/-! ## Forms of text -/

def isDigitOrGap (c : Char) : Bool :=
  isAsciiDigit c || c == '_'

def unsigned : List Char → List Char
  | '-' :: rest => rest
  | '+' :: rest => rest
  | cs => cs

def boolWords : List String :=
  ["yes", "Yes", "YES", "no", "No", "NO", "true", "True", "TRUE", "false", "False", "FALSE",
   "on", "On", "ON", "off", "Off", "OFF"]

def nullWords : List String :=
  ["~", "null", "Null", "NULL", ""]

/-- Digits that start with one, underscores allowed after it; gives what follows them. -/
def afterDigits? : List Char → Option (List Char)
  | c :: rest => if isAsciiDigit c then some (rest.dropWhile isDigitOrGap) else none
  | [] => none

def isExponentTail : List Char → Bool
  | [] => true
  | e :: sign :: digits =>
    (e == 'e' || e == 'E') && (sign == '-' || sign == '+') && !digits.isEmpty &&
      digits.all isAsciiDigit
  | _ => false

/-- A group of base sixty: one digit, or two of which the first is at most five. -/
def isSixtyGroup : List Char → Bool
  | [a] => isAsciiDigit a
  | [a, b] => '0' ≤ a && a ≤ '5' && isAsciiDigit b
  | _ => false

def splitColons : List Char → List (List Char)
  | [] => [[]]
  | c :: rest =>
    match splitColons rest with
    | [] => [[c]]
    | part :: parts => if c == ':' then [] :: part :: parts else (c :: part) :: parts

def isSixtyTail (cs : List Char) : Bool :=
  match splitColons cs with
  | [] :: group :: groups => isSixtyGroup group && groups.all isSixtyGroup
  | _ => false

/-- `12.5e+3`, `.5`, `1:30.5`, `.inf` and `.nan`, in their admitted spellings. -/
def isFloat (cs : List Char) : Bool :=
  let body := unsigned cs
  let decimal :=
    match afterDigits? body with
    | some ('.' :: rest) => isExponentTail (rest.dropWhile isDigitOrGap)
    | some rest =>
      isSixtyTail (rest.takeWhile (· != '.')) &&
        (match rest.dropWhile (· != '.') with
         | '.' :: fraction => fraction.all isDigitOrGap
         | _ => false)
    | none => false
  let pointFirst :=
    match cs with
    | '.' :: rest =>
      match afterDigits? rest with
      | some tail => isExponentTail tail
      | none => false
    | _ => false
  decimal || pointFirst || [".inf", ".Inf", ".INF"].contains (String.ofList body) ||
    [".nan", ".NaN", ".NAN"].contains (String.ofList cs)

def isInt (cs : List Char) : Bool :=
  match unsigned cs with
  | ['0'] => true
  | '0' :: 'b' :: rest => !rest.isEmpty && rest.all fun c => c == '0' || c == '1' || c == '_'
  | '0' :: 'x' :: rest => !rest.isEmpty && rest.all fun c => isHexDigit c || c == '_'
  | '0' :: rest => rest.all fun c => ('0' ≤ c && c ≤ '7') || c == '_'
  | c :: rest =>
    isAsciiDigit c &&
      (let tail := rest.dropWhile isDigitOrGap
       tail.isEmpty || isSixtyTail tail)
  | [] => false

def digits? (n : Nat) (cs : List Char) : Option (List Char × List Char) :=
  let ds := cs.take n
  if ds.length == n && ds.all isAsciiDigit then some (ds, cs.drop n) else none

/-- One or two digits, as many as there are, and what follows them. -/
def oneOrTwoDigits? (cs : List Char) : Option (List Char × List Char) :=
  match digits? 2 cs with
  | some r => some r
  | none => digits? 1 cs

def char? (c : Char) : List Char → Option (List Char)
  | a :: rest => if a == c then some rest else none
  | [] => none

structure TimestampParts where
  year : List Char
  month : List Char
  day : List Char
  time : Option (List Char × List Char × List Char × List Char)
  zone : Option (Option (Bool × List Char × List Char))
deriving Repr

/-- What may stand between a date and a time: a `T`, or blanks. -/
def timeGap? : List Char → Option (List Char)
  | c :: rest =>
    if c == 'T' || c == 't' then some rest
    else if c == ' ' || c == '\t' then some (rest.dropWhile fun a => a == ' ' || a == '\t')
    else none
  | [] => none

/-- A zone at the end of a timestamp: `Z`, or a sign and an offset. -/
def zone? (cs : List Char) : Option (Option (Option (Bool × List Char × List Char))) :=
  if cs.isEmpty then some none
  else
    match cs.dropWhile fun a => a == ' ' || a == '\t' with
    | ['Z'] => some (some none)
    | sign :: rest =>
      if sign == '-' || sign == '+' then
        match oneOrTwoDigits? rest with
        | some (hours, []) => some (some (some (sign == '-', hours, [])))
        | some (hours, ':' :: minutes) =>
          match digits? 2 minutes with
          | some (ms, []) => some (some (some (sign == '-', hours, ms)))
          | _ => none
        | _ => none
      else none
    | [] => none

def time? (year month day cs : List Char) : Option TimestampParts := do
  let rest ← timeGap? cs
  let (hour, rest) ← oneOrTwoDigits? rest
  let (minute, rest) ← digits? 2 (← char? ':' rest)
  let (second, rest) ← digits? 2 (← char? ':' rest)
  let (fraction, rest) := match rest with
    | '.' :: more => (more.takeWhile isAsciiDigit, more.dropWhile isAsciiDigit)
    | more => ([], more)
  let zone ← zone? rest
  return ⟨year, month, day, some (hour, minute, second, fraction), zone⟩

/-- The parts of a timestamp: a date, and possibly a time and a zone. -/
def timestamp? (cs : List Char) : Option TimestampParts := do
  let (year, rest) ← digits? 4 cs
  let (month, rest) ← oneOrTwoDigits? (← char? '-' rest)
  let (day, rest) ← oneOrTwoDigits? (← char? '-' rest)
  if rest.isEmpty then return ⟨year, month, day, none, none⟩
  else time? year month day rest

/-- A timestamp by its text. A date alone needs two digits for month and day. -/
def isTimestamp (cs : List Char) : Bool :=
  match timestamp? cs with
  | some parts => parts.time.isSome || (parts.month.length == 2 && parts.day.length == 2)
  | none => false

def dropFinalFeed (cs : List Char) : List Char :=
  if cs.getLast? == some '\n' then cs.dropLast else cs

def implicit (content : String) : String :=
  let cs := dropFinalFeed content.toList
  let word := String.ofList cs
  if boolWords.contains word then bool
  else if isFloat cs then float
  else if isInt cs then int
  else if word == "<<" then merge
  else if nullWords.contains word && (word != "" || content == "") then null
  else if isTimestamp cs then timestamp
  else if word == "=" then value
  else if ["!", "&", "*"].contains word then standard "yaml"
  else str

end Tag
end Yaml
end YamlServer
