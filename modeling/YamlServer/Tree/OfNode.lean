import YamlServer.Comment
import YamlServer.Tree.Basic
import YamlServer.Yaml.Scalar

/-!
# Trees of composed documents

A composed document as a tree: every key and value becomes a pair, scalars get their values, and
nodes get their comments. What has been converted is kept in a table, in which an alias finds the
node it points at.

* `Tree.convert`: the tree of a node, from a given table on.
* `Tree.ofNode`: the tree of a document's root.
-/

namespace YamlServer
namespace Tree

open Yaml

/-- The value of a scalar. Under one of the plain tags a numeral that cannot be read keeps its text,
as does a scalar with any other tag. -/
def scalarValue (tag content : String) : Except Scalar.Fault Value :=
  match Scalar.plain? tag content with
  | none => .ok (.str content)
  | some (.ok v) => .ok v
  | some (.error .malformed) => .ok (.str content)
  | some (.error f) => .error f

def infoOf (a : Attached) (n : Node) : Info :=
  { start := some n.span.start.index
    stop := some n.span.stop.index
    tag := n.tag?
    commentBefore := a.text? (.before n.id)
    comment := a.text? (.inline n.id) }

/-- How far a conversion has come: the number of the next node of the tree, and under the numbers of
the composed nodes met so far those of the nodes that stand for them. -/
structure Converter where
  next : Nat
  converted : List (Nat × Nat)
deriving Repr

namespace Converter

/-- The next number goes to the node that stands for a composed one. -/
def take (id : Nat) (c : Converter) : Converter :=
  ⟨c.next + 1, (id, c.next) :: c.converted⟩

def takePair (c : Converter) : Converter :=
  { c with next := c.next + 1 }

end Converter

mutual

/-- The tree of a node, with the comments attached to it. An alias points at what its target was
converted to, which is nothing if that has not been met. -/
def convert (a : Attached) : Node → Converter → Except Scalar.Fault (Tree × Converter)
  | .scalar i s tag content style, c => do
    let value ← scalarValue tag content
    return (.scalar (infoOf a (.scalar i s tag content style)) value content style, c.take i)
  | .sequence i s tag items, c => do
    -- A collection is known before what is inside it, where aliases may name it.
    let (children, c) ← convertItems a items (c.take i)
    return (.sequence (infoOf a (.sequence i s tag items)) children, c)
  | .mapping i s tag entries, c => do
    let (children, c) ← convertEntries a entries (c.take i)
    return (.map (infoOf a (.mapping i s tag entries)) children, c)
  | .alias i s anchor target, c =>
    let found := c.converted.lookup target
    .ok (.alias (infoOf a (.alias i s anchor target)) anchor found, c.take i)

def convertItems (a : Attached) :
    List Node → Converter → Except Scalar.Fault (List Tree × Converter)
  | [], c => .ok ([], c)
  | n :: rest, c => do
    let (t, c) ← convert a n c
    let (more, c) ← convertItems a rest c
    return (t :: more, c)

def convertEntries (a : Attached) :
    List (Node × Node) → Converter → Except Scalar.Fault (List Tree × Converter)
  | [], c => .ok ([], c)
  | (k, v) :: rest, c => do
    let (key, c) ← convert a k c.takePair
    let (value, c) ← convert a v c
    let (more, c) ← convertEntries a rest c
    return (.pair (some key) (some value) :: more, c)

end

def ofNode (a : Attached) (n : Node) : Except Scalar.Fault Tree :=
  (convert a n ⟨0, []⟩).map (·.1)

end Tree
end YamlServer
