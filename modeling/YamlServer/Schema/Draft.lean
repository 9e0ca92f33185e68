import YamlServer.Text.Case
import YamlServer.Value

/-!
# Versions of JSON Schema

A schema names the version it is written for by the address of that version's own schema. Without
one, or with an unknown address, it is written for the newest version.

* `Draft.ofSchema`: the version of a schema.
* `Draft.isWellFormed`: whether a schema has the form that its version prescribes: every keyword has
  a value of the right kind, at every depth.
-/

namespace YamlServer
namespace Schema

inductive Draft where
  | four
  | six
  | seven
  | nineteen
  | twenty
deriving Repr, DecidableEq

/-- Why a schema gives no answer: it has not the form of its version, a reference points nowhere,
something that is no schema stands where one is needed, a pointer goes through something without
members, a pointer's index is no number, a type does not exist, or references go round in
circles. -/
inductive Fault where
  | malformed
  | unresolvable
  | notSchema
  | noMembers
  | badIndex
  | unknownType
  | endless
deriving Repr, DecidableEq

namespace Draft

def dropFinal (c : Char) (cs : List Char) : List Char :=
  if cs.getLast? == some c then cs.dropLast else cs

/-- An address without what does not tell it apart: control characters and blanks in front, tabs and
line breaks anywhere, the case of its scheme, and an empty query or fragment at its end. -/
def normalAddress (address : String) : String :=
  let cs := (address.toList.dropWhile (·.toNat ≤ 0x20)).filter fun c =>
    c != '\t' && c != '\n' && c != '\r'
  let scheme := cs.takeWhile (· != ':')
  let rest := dropFinal '?' (dropFinal '#' (cs.dropWhile (· != ':')))
  Text.lower (String.ofList scheme) ++ String.ofList rest

def ofAddress? (address : String) : Option Draft :=
  match normalAddress address with
  | "http://json-schema.org/draft-04/schema" => some .four
  | "http://json-schema.org/draft-06/schema" => some .six
  | "http://json-schema.org/draft-07/schema" => some .seven
  | "https://json-schema.org/draft/2019-09/schema" => some .nineteen
  | "https://json-schema.org/draft/2020-12/schema" => some .twenty
  | _ => none

/-- The version of a schema, `other` if it names none that is known. A schema is a map or a truth
value; a list or a text names no version either, and of anything else it cannot be asked. -/
def ofSchema (other : Draft) (schema : Value) : Except Fault Draft :=
  match schema with
  | .bool _ => .ok other
  | .map members =>
    match Value.get? members "$schema" with
    | none => .ok other
    | some (.str address) => .ok ((ofAddress? address).getD other)
    | some (.list _) | some (.map _) => .error .noMembers
    | some v => if v.isTrue then .error .notSchema else .ok other
  | .list items => if items.any (Value.same (.str "$schema")) then .error .noMembers else .ok other
  | .str s => if (s.splitOn "$schema").length > 1 then .error .noMembers else .ok other
  | _ => .error .noMembers

/-! ## The form of a schema -/

/-- What the value of a keyword must be: a schema, a non-empty list of schemas, either of them, a
schema or a truth value, a map of schemas, a map of schemas or lists of names, or something that is
told by looking at it alone. -/
inductive Form where
  | schema
  | schemas
  | schemaOrSchemas
  | schemaOrBool
  | schemaMap
  | dependencies
  | leaf (fits : Value → Bool)

def isNumber : Value → Bool
  | .int _ | .float _ => true
  | _ => false

def isText : Value → Bool
  | .str _ => true
  | _ => false

def isTruth : Value → Bool
  | .bool _ => true
  | _ => false

def isList : Value → Bool
  | .list _ => true
  | _ => false

/-- A whole number; from version six on a floating-point number may be one. -/
def isWhole (d : Draft) : Value → Bool
  | .int _ => true
  | .float x => d != .four && x.toInt?.isSome
  | _ => false

def isCount (d : Draft) (v : Value) : Bool :=
  isWhole d v &&
    match v with
    | .int i => i ≥ 0
    | .float x => (x.toInt?.getD 0) ≥ 0
    | _ => false

def isPositive (v : Value) : Bool :=
  isNumber v &&
    match v.place? with
    | some p => Binary64.comparePlaces p (0, 1) == .gt
    | none => true

def hasDuplicates : List String → Bool
  | [] => false
  | s :: rest => rest.contains s || hasDuplicates rest

/-- A list of distinct names; version four wants at least one. -/
def isNames (d : Draft) : Value → Bool
  | .list items =>
    items.all isText && (d != .four || !items.isEmpty) &&
      !hasDuplicates (items.map Value.plainText)
  | _ => false

def typeNames : List String :=
  ["array", "boolean", "integer", "null", "number", "object", "string"]

def isTypeName : Value → Bool
  | .str s => typeNames.contains s
  | _ => false

def isType : Value → Bool
  | .str s => typeNames.contains s
  | .list items =>
    !items.isEmpty && items.all isTypeName && !hasDuplicates (items.map Value.plainText)
  | _ => false

def modern (d : Draft) : Bool :=
  d == .nineteen || d == .twenty

def sharedForm? (d : Draft) (keyword : String) : Option Form :=
  match keyword with
  | "$schema" | "title" | "description" | "format" | "pattern" => some (.leaf isText)
  | "minimum" | "maximum" => some (.leaf isNumber)
  | "multipleOf" => some (.leaf isPositive)
  | "minLength" | "maxLength" | "minItems" | "maxItems" | "minProperties" | "maxProperties" =>
    some (.leaf (isCount d))
  | "uniqueItems" => some (.leaf isTruth)
  | "required" => some (.leaf (isNames d))
  | "enum" => some (.leaf isList)
  | "type" => some (.leaf isType)
  | "properties" | "patternProperties" | "definitions" => some .schemaMap
  | "dependencies" => some .dependencies
  | "allOf" | "anyOf" | "oneOf" => some .schemas
  | "not" => some .schema
  | _ => none

/-- The form of the values of keywords whose meaning depends on the version. -/
def form? (d : Draft) (keyword : String) : Option Form :=
  match sharedForm? d keyword with
  | some f => some f
  | none =>
    match keyword with
    | "exclusiveMinimum" | "exclusiveMaximum" =>
      some (.leaf (if d == .four then isTruth else isNumber))
    | "additionalProperties" => some (if d == .four then .schemaOrBool else .schema)
    | "additionalItems" =>
      if d == .four then some .schemaOrBool else if d == .twenty then none else some .schema
    | "items" => some (if d == .twenty then .schema else .schemaOrSchemas)
    | "id" => if d == .four then some (.leaf isText) else none
    | "$id" | "$ref" => if d == .four then none else some (.leaf isText)
    | "contains" | "propertyNames" => if d == .four then none else some .schema
    | "examples" => if d == .four then none else some (.leaf isList)
    | "if" | "then" | "else" => if d == .four || d == .six then none else some .schema
    | "$comment" | "contentEncoding" | "contentMediaType" =>
      if d == .four || d == .six then none else some (.leaf isText)
    | "readOnly" | "writeOnly" =>
      if d == .four || d == .six then none else some (.leaf isTruth)
    | "deprecated" => if d.modern then some (.leaf isTruth) else none
    | "$anchor" => if d.modern then some (.leaf isText) else none
    | "$defs" | "dependentSchemas" => if d.modern then some .schemaMap else none
    | "unevaluatedItems" | "unevaluatedProperties" | "contentSchema" =>
      if d.modern then some .schema else none
    | "maxContains" | "minContains" => if d.modern then some (.leaf (isCount d)) else none
    | "prefixItems" => if d == .twenty then some .schemas else none
    | "$dynamicRef" | "$dynamicAnchor" => if d == .twenty then some (.leaf isText) else none
    | _ => none

/-- In version four an exclusive bound needs the bound it is about. -/
def boundsPaired (d : Draft) (members : List (Value × Value)) : Bool :=
  let has := fun (k : String) => (Value.get? members k).isSome
  d != .four ||
    ((!has "exclusiveMinimum" || has "minimum") && (!has "exclusiveMaximum" || has "maximum"))

mutual

def isWellFormed (d : Draft) : Value → Bool
  | .bool _ => d != .four
  | .map members => membersFit d members && boundsPaired d members
  | _ => false

def membersFit (d : Draft) : List (Value × Value) → Bool
  | [] => true
  | (k, v) :: rest =>
    (match form? d k.plainText with
     | none => true
     | some (.leaf fits) => fits v
     | some .schema => isWellFormed d v
     | some .schemas => isSchemaList d v
     | some .schemaOrSchemas => isWellFormed d v || isSchemaList d v
     | some .schemaOrBool => isTruth v || isWellFormed d v
     | some .schemaMap => isSchemaMap d v
     | some .dependencies => isDependencyMap d v) && membersFit d rest

def isSchemaList (d : Draft) : Value → Bool
  | .list (x :: xs) => isWellFormed d x && allWellFormed d xs
  | _ => false

def allWellFormed (d : Draft) : List Value → Bool
  | [] => true
  | x :: xs => isWellFormed d x && allWellFormed d xs

def isSchemaMap (d : Draft) : Value → Bool
  | .map entries => entriesWellFormed d entries
  | _ => false

def entriesWellFormed (d : Draft) : List (Value × Value) → Bool
  | [] => true
  | (_, v) :: rest => isWellFormed d v && entriesWellFormed d rest

def isDependencyMap (d : Draft) : Value → Bool
  | .map entries => dependenciesFit d entries
  | _ => false

def dependenciesFit (d : Draft) : List (Value × Value) → Bool
  | [] => true
  | (_, v) :: rest => (isWellFormed d v || isNames d v) && dependenciesFit d rest

end

end Draft
end Schema
end YamlServer
