import YamlServer.Graph.Derive
import YamlServer.Yaml.Object

/-!
# Graphs of schemas with shared parts

The key graph of a JSON Schema whose parts may be shared, or hold themselves. A part that was looked
into before is entered again under its name but not looked into again, so that the search ends.

* `Graph.ofSharedSchema`: the graph of a schema given as objects.
* `Graph.ofObjects?`: a graph written out as data, or that of a JSON Schema.
-/

namespace YamlServer
namespace Graph

open Yaml

def itemAt? (entries : List (Value × Item)) (key : String) : Option Item :=
  (entries.find? fun e => Value.same e.1 (.str key)).map (·.2)

def mapAt? (o : Objects) (entries : List (Value × Item)) (key : String) :
    Option (List (Value × Item)) :=
  (itemAt? entries key).bind o.entries?

/-- The properties below a schema: its own, or those of its items. -/
def sharedProperties (o : Objects) (schema : List (Value × Item)) : List (Value × Item) :=
  match mapAt? o schema "properties" with
  | some properties => properties
  | none =>
    match mapAt? o schema "items" with
    | some items => (mapAt? o items "properties").getD []
    | none => []

def sharedTypes (o : Objects) (schema : List (Value × Item)) : List Value :=
  declaredTypes (schema.map fun (k, v) => (k, o.expand 1 v))

structure Visited where
  graph : Graph
  seen : List Nat
deriving Repr

/-- Enter the properties of a schema and of the schemas below them, each of which is looked into
once. -/
def enterShared (o : Objects) : Nat → List (Value × Item) → Visited → Except GraphFault Visited
  | 0, _, v => .ok v
  | fuel + 1, properties, v =>
    properties.foldlM (fun v (name, subschema) =>
      match subschema, o.entries? subschema with
      | .cell id, some schema => do
        let below := sharedProperties o schema
        let graph ← enter name (sharedTypes o schema) (below.map (·.1)) v.graph
        if v.seen.contains id then return { v with graph }
        else enterShared o fuel below ⟨graph, id :: v.seen⟩
      | _, _ => .ok v) v

/-- The graph of a JSON Schema given as objects. On the way down every schema is new, so that their
number bounds the depth. -/
def ofSharedSchema (o : Objects) (schema : List (Value × Item)) : Except GraphFault Graph := do
  let v ← enterShared o (o.cells.length + 1) (sharedProperties o schema) ⟨⟨[]⟩, []⟩
  return v.graph

/-- How deep the data of a written-out graph goes: keys, lists of definitions, definitions, lists of
children, and pairs among these. -/
def writtenDepth : Nat := 6

/-- The graph of objects, which must be a map; none if they are not. A map with a `$schema`, or with
a map of `properties`, is a JSON Schema. -/
def ofObjects? (o : Objects) : Option (Except GraphFault Graph) :=
  match o.entries? o.root with
  | none => none
  | some entries =>
    if (itemAt? entries "$schema").isSome || (mapAt? o entries "properties").isSome then
      some (ofSharedSchema o entries)
    else some (ofMapping (o.expand writtenDepth o.root))

/-- The graph of data in the form of a tree, likewise. -/
def ofData? (data : Value) : Option (Except GraphFault Graph) :=
  match data with
  | .map entries =>
    let isSchema := (Value.get? entries "$schema").isSome ||
      match Value.get? entries "properties" with
      | some (.map _) => true
      | _ => false
    some (if isSchema then ofJsonSchema data else ofMapping data)
  | _ => none

end Graph
end YamlServer
