import YamlServer.Graph.Basic

/-!
# Graphs of JSON Schemas

The key graph of a JSON Schema: every property name, at any depth, is a key. Its definitions have
the declared types of the property and, as children, the names of its own properties, or of those of
its items. A name used in several places collects its distinct definitions.

* `Graph.ofJsonSchema`: the graph of a schema.
-/

namespace YamlServer
namespace Graph

def declaredTypes (schema : List (Value × Value)) : List Value :=
  let implied :=
    if (Value.get? schema "properties").isSome then [.str "object"]
    else if (Value.get? schema "items").isSome then [.str "array"]
    else [.str "any"]
  match Value.get? schema "type" with
  | some (.str s) => [.str s]
  | some (.list (t :: ts)) =>
    (t :: ts).filter fun
      | .str _ => true
      | _ => false
  | _ => implied

/-- The properties below a schema: its own, or those of its items. -/
def nestedProperties (schema : List (Value × Value)) : List (Value × Value) :=
  match Value.get? schema "properties" with
  | some (.map properties) => properties
  | _ =>
    match Value.get? schema "items" with
    | some (.map items) =>
      match Value.get? items "properties" with
      | some (.map properties) => properties
      | _ => []
    | _ => []

/-- Add a definition unless an equal one is there. -/
def addDefinition (d : Definition) (ds : List Definition) : List Definition :=
  if ds.any (Definition.same d) then ds else ds ++ [d]

/-- Change the definitions of a key; a new key comes last. -/
def update (key : Value) (f : List Definition → List Definition) :
    List (Value × List Definition) → List (Value × List Definition)
  | [] => [(key, f [])]
  | (k, ds) :: rest => if Value.same k key then (k, f ds) :: rest else (k, ds) :: update key f rest

def enter (name : Value) (types children : List Value) (g : Graph) : Except GraphFault Graph := do
  let ds ← types.mapM fun t => do
    let type ← SchemaType.parse t
    return Definition.mk type children
  return ⟨update name (fun old => ds.foldl (fun acc d => addDefinition d acc) old) g.entries⟩

/-- Enter the properties of a schema and of the schemas below them. -/
def enterProperties : Nat → List (Value × Value) → Graph → Except GraphFault Graph
  | 0, _, g => .ok g
  | fuel + 1, properties, g =>
    properties.foldlM (fun g (name, subschema) =>
      match subschema with
      | .map schema => do
        let below := nestedProperties schema
        let g ← enter name (declaredTypes schema) (below.map (·.1)) g
        enterProperties fuel below g
      | _ => .ok g) g

mutual

def depth : Value → Nat
  | .list xs | .tuple xs | .set xs => 1 + depthList xs
  | .map es => 1 + depthEntries es
  | _ => 0

def depthList : List Value → Nat
  | [] => 0
  | x :: xs => max (depth x) (depthList xs)

def depthEntries : List (Value × Value) → Nat
  | [] => 0
  | (_, v) :: es => max (depth v) (depthEntries es)

end

def ofJsonSchema (schema : Value) : Except GraphFault Graph :=
  match schema with
  | .map members => enterProperties (depth schema + 1) (nestedProperties members) ⟨[]⟩
  | _ => .error .noMembers

end Graph
end YamlServer
