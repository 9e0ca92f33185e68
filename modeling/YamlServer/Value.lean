import YamlServer.Moment
import YamlServer.Number.Numeral
import YamlServer.Number.Shortest
import YamlServer.Text.Quoted

/-!
# Plain data

The values that documents, settings files and schemas stand for: scalars, lists and maps that keep
the order in which their keys first came, and the few other kinds that YAML can build.

* `Value.same`: equality of data. A number equals another of the same size whatever its kind, and
  `true` and `false` count as 1 and 0.
* `Value.put`: set a key of a map. An equal key that is there already keeps its spelling and its
  place and gets the new value.
* `Value.text`: the written form of a value inside messages and composite keys.
* `Value.isWritable`: whether all integers in a value are short enough to be written where that is
  checked.
-/

namespace YamlServer

inductive Value where
  | null
  | bool (b : Bool)
  | int (i : Int)
  | float (x : Binary64)
  | str (s : String)
  | bytes (data : List UInt8)
  | moment (m : Moment)
  | list (items : List Value)
  | tuple (items : List Value)
  | map (entries : List (Value × Value))
  | set (members : List Value)
deriving Repr, Inhabited

namespace Value

/-- The place of a number on the extended line, truth values counting as 1 and 0. -/
def place? : Value → Option (Int × Nat)
  | .bool b => some (if b then 1 else 0, 1)
  | .int i => some (i, 1)
  | .float x => x.place?
  | _ => none

/-- Numbers of the same size; two not-a-numbers count as one. -/
def sameNumber (a b : Value) : Bool :=
  match a, b with
  | .float .nan, .float .nan => true
  | _, _ =>
    match a.place?, b.place? with
    | some p, some q => Binary64.comparePlaces p q == .eq
    | _, _ => false

mutual

/-- Equality of data. The order of a map's entries does not count. -/
def same : Value → Value → Bool
  | .null, .null => true
  | .str s, .str t => s == t
  | .bytes a, .bytes b => a == b
  | .moment m, .moment n => m.same n
  | .list xs, .list ys => sameList xs ys
  | .tuple xs, .tuple ys => sameList xs ys
  | .map es, .map fs => es.length == fs.length && sameEntries es fs
  | .set xs, .set ys => xs.length == ys.length && sameMembers xs ys
  | a, b => sameNumber a b

def sameList : List Value → List Value → Bool
  | [], [] => true
  | x :: xs, y :: ys => same x y && sameList xs ys
  | _, _ => false

/-- Every entry of the first list has an equal one in the second. -/
def sameEntries : List (Value × Value) → List (Value × Value) → Bool
  | [], _ => true
  | (k, v) :: es, fs => (fs.any fun f => same k f.1 && same v f.2) && sameEntries es fs

/-- Every member of the first list has an equal one in the second. -/
def sameMembers : List Value → List Value → Bool
  | [], _ => true
  | x :: xs, ys => (ys.any fun y => same x y) && sameMembers xs ys

end

def lookup? (key : Value) : List (Value × Value) → Option Value
  | [] => none
  | (k, v) :: rest => if same k key then some v else lookup? key rest

def get? (entries : List (Value × Value)) (key : String) : Option Value :=
  lookup? (.str key) entries

/-- Set a key: an equal key keeps its spelling and its place, a new one comes last. -/
def put (key value : Value) : List (Value × Value) → List (Value × Value)
  | [] => [(key, value)]
  | (k, v) :: rest => if same k key then (k, value) :: rest else (k, v) :: put key value rest

mutual

/-- Values that can be keys: all but lists, maps, sets, and tuples that hold one of these. -/
def isKey : Value → Bool
  | .list _ | .map _ | .set _ => false
  | .tuple xs => allKeys xs
  | _ => true

def allKeys : List Value → Bool
  | [] => true
  | x :: xs => isKey x && allKeys xs

end

def joined (separator : String) : List String → String
  | [] => ""
  | [s] => s
  | s :: rest => s ++ separator ++ joined separator rest

def byteText (quote : Char) (b : UInt8) : List Char :=
  let c := Char.ofNat b.toNat
  if c == quote || c == '\\' then ['\\', c]
  else if c == '\n' then ['\\', 'n']
  else if c == '\r' then ['\\', 'r']
  else if c == '\t' then ['\\', 't']
  else if 0x20 ≤ b.toNat && b.toNat < 0x7f then [c]
  else '\\' :: 'x' :: Text.hexDigits 2 b.toNat

/-- Bytes between quotes, which are chosen as for text. -/
def bytesText (data : List UInt8) : String :=
  let quote := Text.quoteFor (data.map fun b => Char.ofNat b.toNat)
  String.ofList ('b' :: quote :: data.flatMap (byteText quote) ++ [quote])

mutual

def text : Value → String
  | .null => "None"
  | .bool b => if b then "True" else "False"
  | .int i => toString i
  | .float x => x.text
  | .str s => Text.quoted s
  | .bytes data => bytesText data
  | .moment m => m.spelled
  | .list xs => "[" ++ joined ", " (texts xs) ++ "]"
  | .tuple xs =>
    match texts xs with
    | [one] => "(" ++ one ++ ",)"
    | many => "(" ++ joined ", " many ++ ")"
  | .map es => "\x7b" ++ joined ", " (entryTexts es) ++ "\x7d"
  | .set xs => if xs.isEmpty then "set()" else "\x7b" ++ joined ", " (texts xs) ++ "\x7d"

def texts : List Value → List String
  | [] => []
  | x :: xs => text x :: texts xs

def entryTexts : List (Value × Value) → List String
  | [] => []
  | (k, v) :: es => (text k ++ ": " ++ text v) :: entryTexts es

end

mutual

/-- Whether no integer in a value has more digits than a numeral may have. -/
def isWritable : Value → Bool
  | .int i => i.natAbs < Nat.pow 10 Numeral.maxDecimalDigits
  | .list xs | .tuple xs | .set xs => allWritable xs
  | .map es => entriesWritable es
  | _ => true

def allWritable : List Value → Bool
  | [] => true
  | x :: xs => isWritable x && allWritable xs

def entriesWritable : List (Value × Value) → Bool
  | [] => true
  | (k, v) :: es => isWritable k && isWritable v && entriesWritable es

end

/-- The text of a value where a text stays as it is, and a moment has its plain form. -/
def plainText : Value → String
  | .str s => s
  | .moment m => m.plain
  | v => v.text

/-- Whether a value counts as true: empty and zero values do not. -/
def isTrue : Value → Bool
  | .null => false
  | .bool b => b
  | .int i => i != 0
  | .float x => !x.isZero
  | .str s => s != ""
  | .bytes data => !data.isEmpty
  | .moment _ => true
  | .list xs | .tuple xs | .set xs => !xs.isEmpty
  | .map es => !es.isEmpty

end Value
end YamlServer
