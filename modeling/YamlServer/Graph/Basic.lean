import YamlServer.Text.Case
import YamlServer.Value

/-!
# Schema graphs

A schema graph says which keys there are, of what types their values may be, and which keys may
stand below them. A key may have several definitions, each with a type and a list of child keys; a
child need not have an entry of its own.

* `Graph.ofMapping`: a graph written out as data.
* `Graph.definitions`: the definitions of a key that must have some entry.
* `Graph.dangling`: the children without an entry.
-/

namespace YamlServer

inductive SchemaType where
  | string
  | number
  | integer
  | boolean
  | object
  | array
  | null
  | any
deriving Repr, DecidableEq

namespace SchemaType

def all : List SchemaType :=
  [.string, .number, .integer, .boolean, .object, .array, .null, .any]

def name : SchemaType → String
  | .string => "string"
  | .number => "number"
  | .integer => "integer"
  | .boolean => "boolean"
  | .object => "object"
  | .array => "array"
  | .null => "null"
  | .any => "any"

/-- Whether a value is of a type. Numbers are both numbers and integers, whole or not. -/
def accepts (t : SchemaType) (v : Value) : Bool :=
  t == .any ||
    match v with
    | .null => t == .null
    | .bool _ => t == .boolean
    | .int _ | .float _ => t == .number || t == .integer
    | .str _ => t == .string
    | .map _ => t == .object
    | .list _ | .tuple _ => t == .array
    | .bytes _ | .moment _ | .set _ => false

def ofValue (v : Value) : List SchemaType :=
  all.filter fun t => t.accepts v

end SchemaType

/-- Why data is no graph, or a graph gives no answer: a type that does not exist, a key without an
entry, data without members or items where some are needed, and a composite key. -/
inductive GraphFault where
  | unknownType (name : Value)
  | undefinedKey (key : Value)
  | noMembers
  | noItems
  | compositeKey
  | emptyRoute
deriving Repr

namespace GraphFault

/-- The wording of a defect of the graph itself; the other faults have none. -/
def message? : GraphFault → Option String
  | .unknownType name => some ("unknown schema type " ++ name.text)
  | .undefinedKey key => some ("key " ++ key.text ++ " is referenced but has no definition")
  | _ => none

end GraphFault

namespace SchemaType

/-- The type of a name, in any case. -/
def parse (name : Value) : Except GraphFault SchemaType :=
  match name with
  | .str s =>
    match all.find? fun t => t.name == Text.lower s with
    | some t => .ok t
    | none => .error (.unknownType name)
  | .bytes _ => .error (.unknownType name)
  | _ => .error .noMembers

end SchemaType

/-- One way a key may be used: the type of its value and the keys below it. -/
structure Definition where
  type : SchemaType
  children : List Value
deriving Repr

namespace Definition

def same (a b : Definition) : Bool :=
  a.type == b.type && Value.sameList a.children b.children

def accepts (d : Definition) (v : Value) : Bool :=
  d.type.accepts v

end Definition

structure Graph where
  entries : List (Value × List Definition)
deriving Repr

namespace Graph

def find? (key : Value) : List (Value × List Definition) → Option (List Definition)
  | [] => none
  | (k, ds) :: rest => if Value.same k key then some ds else find? key rest

def get? (g : Graph) (key : Value) : Option (List Definition) :=
  find? key g.entries

def contains (g : Graph) (key : Value) : Bool :=
  (g.get? key).isSome

def size (g : Graph) : Nat :=
  g.entries.length

def keys (g : Graph) : List Value :=
  g.entries.map (·.1)

/-- The definitions of a key; a key without an entry is a defect of the graph. -/
def definitions (g : Graph) (key : Value) : Except GraphFault (List Definition) :=
  match g.get? key with
  | some ds => .ok ds
  | none => .error (.undefinedKey key)

/-- The parents and children without an entry, among the children of one definition. -/
def danglingOf (g : Graph) (parent : Value) :
    List Value → Except GraphFault (List (Value × Value))
  | [] => .ok []
  | child :: rest =>
    if child.isKey then do
      let more ← danglingOf g parent rest
      return if g.contains child then more else (parent, child) :: more
    else .error .compositeKey

def dangling (g : Graph) : Except GraphFault (List (Value × Value)) := do
  let parts ← g.entries.mapM fun (key, ds) => ds.mapM fun d => danglingOf g key d.children
  return parts.flatten.flatten

def summary (g : Graph) : String :=
  "SchemaGraph(" ++ toString g.size ++ " keys)"

/-! ## Graphs written as data -/

/-- The items of a value, as a loop over it meets them. -/
def items? : Value → Option (List Value)
  | .list xs | .tuple xs | .set xs => some xs
  | .map es => some (es.map (·.1))
  | .str s => some (s.toList.map fun c => .str (String.ofList [c]))
  | .bytes data => some (data.map fun b => .int (Int.ofNat b.toNat))
  | _ => none

/-- A definition: a map with a type, `any` if left out, and a list of children. -/
def definitionOf (entry : Value) : Except GraphFault Definition :=
  match entry with
  | .map members => do
    let type ← SchemaType.parse ((Value.get? members "type").getD (.str "any"))
    match items? ((Value.get? members "children").getD (.list [])) with
    | some children => return ⟨type, children⟩
    | none => .error .noItems
  | _ => .error .noMembers

/-- The definitions of a key: one, or a list of them. -/
def definitionsOf (entries : Value) : Except GraphFault (List Definition) :=
  match entries with
  | .map members => do
    let d ← definitionOf (.map members)
    return [d]
  | _ =>
    match items? entries with
    | some entries => entries.mapM definitionOf
    | none => .error .noItems

def ofMapping (data : Value) : Except GraphFault Graph :=
  match data with
  | .map members => do
    let entries ← members.mapM fun (key, entries) => do
      let ds ← definitionsOf entries
      return (key, ds)
    return ⟨entries⟩
  | _ => .error .noMembers

end Graph
end YamlServer
