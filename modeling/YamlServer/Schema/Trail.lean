import YamlServer.Document.Basic
import YamlServer.Schema.Check
import YamlServer.Tree.Data

/-!
# Schemas along a path

Which part of a schema applies to each node on the way from the root of a document down to an
offset, and whether the node satisfies it. The way follows `properties`, `additionalProperties` and
`items` only; references and combinations count when a node is checked, and are not followed. Who
checks is open: the way down asks a judge.

* `Schema.Judge`: whom the way down asks.
* `Schema.trail`: the nodes around an offset, each with its part of the schema.
* `Document.matchesAt`, `Document.matchesOf`: the same for an offset of a document, and for the
  place of a node.
* `Schema.drafts`: the judge that knows the versions of JSON Schema.
* `Document.schemasAt`, `Document.schemasOf`: what it says.
-/

namespace YamlServer
namespace Schema

/-- A node, the part of the schema that applies to it, and whether it is satisfied. -/
structure Match where
  node : Nat
  schema : Value
  valid : Bool
deriving Repr

/-- The child of a node that holds an offset, with its number and its part of the schema. -/
def step? (offset : Int) (id : Nat) (t : Tree) (schema : List (Value × Value)) :
    Option (Nat × Tree × Value) :=
  match t with
  | .map _ entries =>
    let properties := match Value.get? schema "properties" with
      | some (.map properties) => properties
      | _ => []
    (Tree.numberFrom (id + 1) entries).findSome? fun (i, entry) =>
      match entry with
      | .pair key (some value) =>
        if value.contains offset then
          let named := entry.keyText?.bind (Value.get? properties)
          match named.orElse fun _ => Value.get? schema "additionalProperties" with
          | some part => some (i + 1 + Tree.sizeOption key, value, part)
          | none => some (i + 1 + Tree.sizeOption key, value, .null)
        else none
      | _ => none
  | .sequence _ items =>
    let part := (Value.get? schema "items").getD .null
    (Tree.numberFrom (id + 1) items).findSome? fun (i, item) =>
      if item.contains offset then some (i, item, part) else none
  | _ => none

/-- A judge of schemas: in which version it reads one, whether that has the form of its version, and
whether a value satisfies a part of a schema. -/
structure Judge where
  Version : Type
  versionOf : (schema : Value) → Except Fault Version
  isFormed : (version : Version) → (schema : Value) → Bool
  isValid : (version : Version) → (schema part instance_ : Value) → Except Fault Bool

/-- The matches from a node down. The way goes on as long as the part of the schema is a map and the
node holds the offset; each step goes down one level of the tree. -/
def trailFrom (isValid : Value → Value → Except Fault Bool) (visits : List Tree.Visit)
    (offset : Int) : Nat → Nat → Tree → Value → Except Fault (List Match)
  | 0, _, _, _ => .ok []
  | fuel + 1, id, t, schema =>
    match schema with
    | .map members =>
      if t.contains offset then do
        let valid ← isValid schema (Tree.dataAt visits id t)
        let rest ← match step? offset id t members with
          | some (i, child, part) => trailFrom isValid visits offset fuel i child part
          | none => .ok []
        return ⟨id, schema, valid⟩ :: rest
      else .ok []
    | _ => .ok []

/-- The matches of a tree at an offset. The schema must have the form of its version. -/
def trail (j : Judge) (tree : Option Tree) (schema : Value) (offset : Int) :
    Except Fault (List Match) := do
  let version ← j.versionOf schema
  if j.isFormed version schema then
    match tree with
    | none => return []
    | some root =>
      let visits := root.visits
      trailFrom (j.isValid version schema) visits offset (visits.length + 1) 0 root schema
  else .error .malformed

def drafts : Judge where
  Version := Draft
  versionOf := Draft.ofSchema .twenty
  isFormed := Draft.isWellFormed
  isValid d schema part instance_ := isValid schema d part instance_

end Schema

namespace Document

open Schema (Judge Match)

def matchesAt (j : Judge) (d : Document) (schema : Value) (offset : Int) :
    Except Schema.Fault (List Match) :=
  Schema.trail j d.root schema offset

/-- The parts of a schema that apply around a node; none if its place is not known. -/
def matchesOf (j : Judge) (d : Document) (schema : Value) (t : Tree) :
    Except Schema.Fault (List Match) :=
  match t.located.start? with
  | none => .ok []
  | some start => d.matchesAt j schema (Int.ofNat start)

def schemasAt (d : Document) (schema : Value) (offset : Int) :
    Except Schema.Fault (List Match) :=
  d.matchesAt Schema.drafts schema offset

def schemasOf (d : Document) (schema : Value) (t : Tree) : Except Schema.Fault (List Match) :=
  d.matchesOf Schema.drafts schema t

end Document
end YamlServer
