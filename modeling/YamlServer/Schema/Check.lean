import YamlServer.Number.Numeral
import YamlServer.Schema.Draft
import YamlServer.Schema.Equal
import YamlServer.Uri

/-!
# Instances against a schema

Whether a value satisfies a schema. The keywords of a schema are looked at in the order in which
they stand, and the first that is not satisfied decides; only the branches of `anyOf` and `oneOf`
are looked through to the end. A reference is followed when it is reached, so that one that points
nowhere fails only then.

* `Schema.lookup`: what a reference points at.
* `Schema.isValid`: whether a value satisfies a schema.
-/

namespace YamlServer
namespace Schema

/-! ## References -/

/-- Replace the escapes of a pointer's segment: `~1` is a slash and `~0` a tilde. -/
def unescapeSegment : List Char → List Char
  | '~' :: '1' :: rest => '/' :: unescapeSegment rest
  | '~' :: '0' :: rest => '~' :: unescapeSegment rest
  | c :: rest => c :: unescapeSegment rest
  | [] => []

/-- The item at an index that may count from the end. -/
def itemAt? {α : Type} (items : List α) (index : Int) : Option α :=
  if index < 0 then
    let i := index + Int.ofNat items.length
    if i < 0 then none else items[i.toNat]?
  else items[index.toNat]?

def follow : List (List Char) → Value → Except Fault Value
  | [], v => .ok v
  | segment :: rest, v =>
    match v with
    | .map members =>
      match Value.get? members (String.ofList (unescapeSegment segment)) with
      | some next => follow rest next
      | none => .error .unresolvable
    | .list items =>
      match Numeral.int? 10 segment with
      | none => .error .badIndex
      | some i =>
        match itemAt? items i with
        | some next => follow rest next
        | none => .error .unresolvable
    | .str s =>
      match Numeral.int? 10 segment with
      | none => .error .badIndex
      | some i =>
        match itemAt? s.toList i with
        | some c => follow rest (.str (String.ofList [c]))
        | none => .error .unresolvable
    | _ => .error .noMembers

def segments : List Char → List (List Char)
  | [] => [[]]
  | c :: rest =>
    match segments rest with
    | [] => [[c]]
    | part :: parts => if c == '/' then [] :: part :: parts else (c :: part) :: parts

/-- What a reference inside the schema `root` points at: `#` is the schema itself, `#/…` a pointer
into it. Other references point nowhere. -/
def lookup (root : Value) (reference : Value) : Except Fault Value :=
  match reference with
  | .str s =>
    match s.toList with
    | ['#'] => .ok root
    | '#' :: '/' :: pointer => follow (segments (Uri.unquote pointer)) root
    | _ => .error .unresolvable
  | _ => .error .notSchema

/-! ## Types and bounds -/

def isOfType (d : Draft) (name : Value) (v : Value) : Except Fault Bool :=
  match name with
  | .str "array" => .ok (Draft.isList v)
  | .str "boolean" => .ok (Draft.isTruth v)
  | .str "integer" => .ok (Draft.isWhole d v)
  | .str "null" =>
    .ok (match v with
      | .null => true
      | _ => false)
  | .str "number" => .ok (Draft.isNumber v)
  | .str "object" =>
    .ok (match v with
      | .map _ => true
      | _ => false)
  | .str "string" => .ok (Draft.isText v)
  | _ => .error .unknownType

def isOfSomeType (d : Draft) (v : Value) : List Value → Except Fault Bool
  | [] => .ok false
  | t :: rest => do if ← isOfType d t v then return true else isOfSomeType d v rest

/-- Compare an instance that is a number with a bound. Not-a-numbers compare with nothing. -/
def compareNumber? (instance_ bound : Value) : Option Ordering :=
  match instance_.place?, bound.place? with
  | some p, some q => some (Binary64.comparePlaces p q)
  | _, _ => none

/-- Whether a value that is a number keeps a bound; `bad` are the orders that break it. -/
def keepsBound (v bound : Value) (bad : List Ordering) : Bool :=
  !Draft.isNumber v ||
    match compareNumber? v bound with
    | some o => !bad.contains o
    | none => true

def keepsCount (count : Nat) (bound : Value) (bad : List Ordering) : Bool :=
  match compareNumber? (.int (Int.ofNat count)) bound with
  | some o => !bad.contains o
  | none => true

def lengthOf? : Value → Option Nat
  | .str s => some s.length
  | _ => none

def itemCount? : Value → Option Nat
  | .list xs => some xs.length
  | _ => none

def propertyCount? : Value → Option Nat
  | .map es => some es.length
  | _ => none

def keepsOptional (count : Option Nat) (bound : Value) (bad : List Ordering) : Bool :=
  match count with
  | some n => keepsCount n bound bad
  | none => true

/-- The exclusive mark of version four beside a bound. -/
def isExclusive (schema : List (Value × Value)) (keyword : String) : Bool :=
  ((Value.get? schema keyword).map Value.isTrue).getD false

/-- The keywords that are decided without looking at other schemas; none if the keyword is not one
of them. -/
def simpleKeyword? (d : Draft) (schema : List (Value × Value)) (keyword : String)
    (v instance_ : Value) : Option (Except Fault Bool) :=
  match keyword with
  | "type" =>
    some (isOfSomeType d instance_ (match v with
      | .list types => types
      | t => [t]))
  | "enum" =>
    match v with
    | .list options => some (.ok (options.any fun o => equal false o instance_))
    | _ => some (.ok true)
  | "const" => if d == .four then none else some (.ok (equal false instance_ v))
  | "minimum" =>
    let strict := d == .four && isExclusive schema "exclusiveMinimum"
    some (.ok (keepsBound instance_ v (if strict then [.lt, .eq] else [.lt])))
  | "maximum" =>
    let strict := d == .four && isExclusive schema "exclusiveMaximum"
    some (.ok (keepsBound instance_ v (if strict then [.gt, .eq] else [.gt])))
  | "exclusiveMinimum" =>
    if d == .four then none else some (.ok (keepsBound instance_ v [.lt, .eq]))
  | "exclusiveMaximum" =>
    if d == .four then none else some (.ok (keepsBound instance_ v [.gt, .eq]))
  | "minLength" => some (.ok (keepsOptional (lengthOf? instance_) v [.lt]))
  | "maxLength" => some (.ok (keepsOptional (lengthOf? instance_) v [.gt]))
  | "minItems" => some (.ok (keepsOptional (itemCount? instance_) v [.lt]))
  | "maxItems" => some (.ok (keepsOptional (itemCount? instance_) v [.gt]))
  | "minProperties" => some (.ok (keepsOptional (propertyCount? instance_) v [.lt]))
  | "maxProperties" => some (.ok (keepsOptional (propertyCount? instance_) v [.gt]))
  | "uniqueItems" =>
    match instance_ with
    | .list items => some (.ok (!v.isTrue || allDistinct items))
    | _ => some (.ok true)
  | "required" =>
    match v, instance_ with
    | .list names, .map members =>
      some (.ok (names.all fun name => (Value.lookup? name members).isSome))
    | _, _ => some (.ok true)
  | _ => none

/-! ## Keywords that apply schemas -/

/-- The keywords that count: before the version of 2019 a reference hides its siblings. -/
def applicable (d : Draft) (schema : List (Value × Value)) : List (Value × Value) :=
  if d.modern then schema
  else
    match Value.get? schema "$ref" with
    | none | some .null => schema
    | some r => [(.str "$ref", r)]

def additional (schema members : List (Value × Value)) : List (Value × Value) :=
  match Value.get? schema "properties" with
  | some (.map properties) => members.filter fun m => (Value.lookup? m.1 properties).isNone
  | _ => members

abbrev Task := Value × Value

/-- The pairs of schema and instance that a keyword asks to be satisfied, all of them; none if it is
not such a keyword. -/
def tasks? (schema : List (Value × Value)) (keyword : String) (v instance_ : Value) :
    Option (List Task) :=
  match keyword with
  | "properties" =>
    match v, instance_ with
    | .map properties, .map members =>
      some (properties.filterMap fun (name, sub) =>
        (Value.lookup? name members).map fun m => (sub, m))
    | _, _ => some []
  | "additionalProperties" =>
    match instance_ with
    | .map members => some ((additional schema members).map fun m => (v, m.2))
    | _ => some []
  | "items" =>
    match instance_ with
    | .list items =>
      match v with
      | .list schemas => some (schemas.zip items)
      | _ => some (items.map fun i => (v, i))
    | _ => some []
  | "allOf" =>
    match v with
    | .list schemas => some (schemas.map fun s => (s, instance_))
    | _ => some []
  | _ => none

/-- Keep the first answer that is no, or with `all` look at everything before saying so. -/
def conjunction (all : Bool) (check : Task → Except Fault Bool) : List Task → Except Fault Bool
  | [] => .ok true
  | t :: rest => do
    if ← check t then conjunction all check rest
    else if all then do
      let _ ← conjunction all check rest
      return false
    else return false

def firstValid (check : Value → Except Fault Bool) : List Value → Except Fault (Option (List Value))
  | [] => .ok none
  | s :: rest => do if ← check s then return some rest else firstValid check rest

/-- Whether a value satisfies a schema. `outer` is the version that decides which keywords count,
`d` the one that gives them their meaning. With `all`, every keyword is looked at. -/
def check (root : Value) : Nat → Bool → Draft → Draft → Value → Value → Except Fault Bool
  | 0, _, _, _, _, _ => .error .endless
  | fuel + 1, all, outer, d, schema, instance_ =>
    let descend (all : Bool) (sub inst : Value) : Except Fault Bool :=
      match sub with
      | .bool b => .ok b
      | _ => do
        let inner ← Draft.ofSchema d sub
        check root fuel all d inner sub inst
    let alone (sub : Value) : Except Fault Bool :=
      match sub with
      | .bool b => .ok b
      | _ => do
        let inner ← Draft.ofSchema d sub
        check root fuel false inner inner sub instance_
    match schema with
    | .bool b => .ok b
    | .map members =>
      let keyword (name : String) (v : Value) : Except Fault Bool :=
        match simpleKeyword? d members name v instance_, tasks? members name v instance_ with
        | some answer, _ => answer
        | none, some tasks => conjunction all (fun t => descend all t.1 t.2) tasks
        | none, none =>
          match name, v with
          | "$ref", _ => do
            let target ← lookup root v
            descend all target instance_
          | "not", _ => do return !(← alone v)
          | "if", _ =>
            if d == .four || d == .six then .ok true
            else do
              let branch := if ← alone v then "then" else "else"
              match Value.get? members branch with
              | some sub => descend all sub instance_
              | none => return true
          | "anyOf", .list schemas => do
            return (← firstValid (fun s => descend true s instance_) schemas).isSome
          | "oneOf", .list schemas => do
            match ← firstValid (fun s => descend true s instance_) schemas with
            | none => return false
            | some rest => return !(← rest.mapM alone).any id
          | _, _ => .ok true
      conjunction all (fun t => keyword t.1.plainText t.2) (applicable outer members)
    | _ => .error .notSchema

mutual

def weight : Value → Nat
  | .list xs | .tuple xs | .set xs => 1 + weightList xs
  | .map es => 1 + weightEntries es
  | _ => 1

def weightList : List Value → Nat
  | [] => 0
  | x :: xs => weight x + weightList xs

def weightEntries : List (Value × Value) → Nat
  | [] => 0
  | (_, v) :: es => weight v + weightEntries es

end

/-- Whether a value satisfies the schema `schema`, a part of `root`, in a version. On
the way down no schema meets the same part of the instance in the same versions twice, unless
references go round, which bounds the depth. -/
def isValid (root : Value) (d : Draft) (schema instance_ : Value) : Except Fault Bool := do
  let own ← Draft.ofSchema d schema
  let fuel := 25 * (weight root + weight schema + 1) * (weight instance_ + 1) + 1
  check root fuel false own own schema instance_

end Schema
end YamlServer
