import YamlServer.Toml.Scalar

/-!
# Settings files

Reading TOML: tables, arrays of tables, dotted keys and inline tables. A table is opened once; what
an array or an inline table holds cannot be added to.

* `Toml.Tables`: the data read so far, and what is fixed about it.
* `Toml.parse`: the entries of a text.
-/

namespace YamlServer
namespace Toml

abbrev Entries := List (Value × Value)

abbrev Key := List String

/-! ## Tables -/

/-- Change the table at a key, whose tables are made on the way. In an array of tables the last one
is meant, unless `arrays` is off. -/
def modify (arrays : Bool) (f : Entries → Except Fault Entries) :
    Key → Entries → Except Fault Entries
  | [], es => f es
  | k :: rest, es =>
    match (Value.get? es k).getD (.map []) with
    | .map inner => do
      let inner ← modify arrays f rest inner
      return Value.put (.str k) (.map inner) es
    | .list items =>
      match arrays, items.getLast? with
      | true, some (.map inner) => do
        let inner ← modify arrays f rest inner
        return Value.put (.str k) (.list (items.dropLast ++ [.map inner])) es
      | _, _ => .error .malformed
    | _ => .error .malformed

def define (k : String) (v : Value) (es : Entries) : Except Fault Entries :=
  if (Value.get? es k).isSome then .error .malformed else .ok (Value.put (.str k) v es)

def appendTable (k : String) (es : Entries) : Except Fault Entries :=
  match Value.get? es k with
  | none => .ok (Value.put (.str k) (.list [.map []]) es)
  | some (.list items) => .ok (Value.put (.str k) (.list (items ++ [.map []])) es)
  | some _ => .error .malformed

/-- What has been read, the keys that are fixed with all below them, those that have been opened as
tables, those that will count as opened from the next header on, and the current header. -/
structure Tables where
  data : Entries
  frozen : List Key
  opened : List Key
  pending : List Key
  header : Key
deriving Repr

namespace Tables

def empty : Tables :=
  ⟨[], [], [], [], []⟩

/-- A key is fixed when it or one above it has been frozen. -/
def isFrozen (t : Tables) (key : Key) : Bool :=
  t.frozen.any fun f => f.isPrefixOf key

def isOpened (t : Tables) (key : Key) : Bool :=
  t.opened.contains key

def settle (t : Tables) : Tables :=
  { t with opened := t.pending ++ t.opened, pending := [] }

def openTable (key : Key) (t : Tables) : Except Fault Tables :=
  if t.isOpened key || t.isFrozen key then .error .malformed
  else do
    let data ← modify true .ok key t.data
    return { t with data, opened := key :: t.opened, header := key }

/-- Open a new table of an array; what was known below the key is forgotten. -/
def openArrayTable (key : Key) (t : Tables) : Except Fault Tables :=
  if t.isFrozen key then .error .malformed
  else
    match key.getLast? with
    | none => .error .malformed
    | some last => do
      let data ← modify true (appendTable last) key.dropLast t.data
      let forget (keys : List Key) : List Key := keys.filter fun k => !key.isPrefixOf k
      return { t with
        data, header := key, frozen := forget t.frozen, opened := key :: forget t.opened }

def through (header key : Key) : List Key :=
  (List.range (key.length - 1)).map fun i => header ++ key.take (i + 1)

def isClosed : Value → Bool
  | .map _ | .list _ => true
  | _ => false

def set (key : Key) (v : Value) (t : Tables) : Except Fault Tables :=
  match key.getLast? with
  | none => .error .malformed
  | some last =>
    let parent := t.header ++ key.dropLast
    let passed := through t.header key
    if passed.any t.isOpened || t.isFrozen parent then .error .malformed
    else do
      let data ← modify true (define last v) parent t.data
      let frozen := if isClosed v then (t.header ++ key) :: t.frozen else t.frozen
      return { t with data, frozen, pending := passed ++ t.pending }

end Tables

/-! ## Keys -/

def isBareKeyChar (c : Char) : Bool :=
  Text.isAsciiDigit c || ('a' ≤ c && c ≤ 'z') || ('A' ≤ c && c ≤ 'Z') || c == '-' || c == '_'

/-- One name of a key: bare, or a string on one line. -/
def readKeyPart (cs : List Char) : Except Fault (String × List Char) :=
  match cs with
  | [] => .error .malformed
  | c :: rest =>
    if isBareKeyChar c then
      .ok (String.ofList (cs.takeWhile isBareKeyChar), cs.dropWhile isBareKeyChar)
    else if c == '\'' then do
      let (name, after) ← readLiteral rest
      return (String.ofList name, after)
    else if c == '"' then do
      let (name, after) ← readBasic false cs.length rest
      return (String.ofList name, after)
    else .error .malformed

/-- A key: names with points between them. -/
def readKey : Nat → List Char → Except Fault (Key × List Char)
  | 0, _ => .error .malformed
  | fuel + 1, cs => do
    let (name, rest) ← readKeyPart cs
    match rest.dropWhile isSpace with
    | '.' :: more =>
      let (names, after) ← readKey fuel (more.dropWhile isSpace)
      return (name :: names, after)
    | after => return ([name], after)

/-! ## Values -/

def readScalar (cs : List Char) : Except Fault (Value × List Char) :=
  match cs with
  | [] => .error .malformed
  | c :: _ =>
    if c == '"' || c == '\'' then do
      let (s, rest) ← readString c cs
      return (.str (String.ofList s), rest)
    else if startsWith "true".toList cs then .ok (.bool true, cs.drop 4)
    else if startsWith "false".toList cs then .ok (.bool false, cs.drop 5)
    else
      match readMoment? cs with
      | some r => r
      | none =>
        match readNumber? cs with
        | some r => r
        | none =>
          match readSpecial? cs with
          | some r => .ok r
          | none => .error .malformed

def setInline (key : Key) (v : Value) (frozen : List Key) (es : Entries) :
    Except Fault Entries :=
  match key.getLast? with
  | none => .error .malformed
  | some last =>
    if frozen.any fun f => f.isPrefixOf key then .error .malformed
    else modify false (define last v) key.dropLast es

mutual

def readValue : Nat → List Char → Except Fault (Value × List Char)
  | 0, _ => .error .malformed
  | fuel + 1, cs =>
    match cs with
    | '[' :: rest => do
      let rest ← skipGap (rest.length + 1) rest
      let (items, after) ← readItems fuel rest
      return (.list items, after)
    | '\x7b' :: rest =>
      match rest.dropWhile isSpace with
      | '\x7d' :: after => .ok (.map [], after)
      | first => do
        let (es, after) ← readMembers fuel [] [] first
        return (.map es, after)
    | _ => readScalar cs

/-- The items of an array up to its end; a comma may follow the last one. -/
def readItems : Nat → List Char → Except Fault (List Value × List Char)
  | 0, _ => .error .malformed
  | fuel + 1, cs =>
    match cs with
    | ']' :: after => .ok ([], after)
    | _ => do
      let (v, rest) ← readValue fuel cs
      match ← skipGap (rest.length + 1) rest with
      | ']' :: after => return ([v], after)
      | ',' :: more =>
        let more ← skipGap (more.length + 1) more
        let (items, after) ← readItems fuel more
        return (v :: items, after)
      | _ => .error .malformed

/-- The members of an inline table up to its end, added to those in `es`; `frozen` are the keys that
cannot be added to. -/
def readMembers : Nat → List Key → Entries → List Char → Except Fault (Entries × List Char)
  | 0, _, _, _ => .error .malformed
  | fuel + 1, frozen, es, cs => do
    let (key, rest) ← readKey (cs.length + 1) cs
    match rest with
    | '=' :: more =>
      let (v, rest) ← readValue fuel (more.dropWhile isSpace)
      let es ← setInline key v frozen es
      match rest.dropWhile isSpace with
      | '\x7d' :: after => return (es, after)
      | ',' :: more =>
        let frozen := if Tables.isClosed v then key :: frozen else frozen
        readMembers fuel frozen es (more.dropWhile isSpace)
      | _ => .error .malformed
    | _ => .error .malformed

end

/-! ## Statements -/

def readSetting (t : Tables) (cs : List Char) : Except Fault (Tables × List Char) := do
  let (key, rest) ← readKey (cs.length + 1) cs
  match rest with
  | '=' :: more =>
    let start := more.dropWhile isSpace
    let (v, rest) ← readValue (2 * start.length + 2) start
    let t ← t.set key v
    return (t, rest)
  | _ => .error .malformed

def readHeader (t : Tables) (cs : List Char) : Except Fault (Tables × List Char) := do
  let t := t.settle
  match cs with
  | '[' :: rest =>
    let (key, rest) ← readKey (rest.length + 1) (rest.dropWhile isSpace)
    let t ← t.openArrayTable key
    match rest with
    | ']' :: ']' :: after => return (t, after)
    | _ => .error .malformed
  | _ =>
    let (key, rest) ← readKey (cs.length + 1) (cs.dropWhile isSpace)
    let t ← t.openTable key
    match rest with
    | ']' :: after => return (t, after)
    | _ => .error .malformed

/-- One statement: a setting, a header, or nothing. -/
def readStatement (t : Tables) (cs : List Char) : Except Fault (Tables × List Char) :=
  match cs with
  | '[' :: rest => readHeader t rest
  | c :: _ =>
    if isBareKeyChar c || c == '"' || c == '\'' then readSetting t cs
    else if c == '#' then .ok (t, cs)
    else .error .malformed
  | [] => .ok (t, [])

def readStatements : Nat → Tables → List Char → Except Fault Tables
  | 0, t, _ => .ok t
  | fuel + 1, t, cs =>
    match cs.dropWhile isSpace with
    | [] => .ok t
    | '\n' :: rest => readStatements fuel t rest
    | start => do
      let (t, rest) ← readStatement t start
      match ← skipComment (rest.dropWhile isSpace) with
      | [] => return t
      | '\n' :: rest => readStatements fuel t rest
      | _ => .error .malformed

def parse (cs : List Char) : Except Fault Entries := do
  let t ← readStatements (cs.length + 1) Tables.empty cs
  return t.data

end Toml
end YamlServer
