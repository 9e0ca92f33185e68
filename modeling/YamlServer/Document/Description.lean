import YamlServer.Diagnostic
import YamlServer.Document.Position

/-!
# Descriptions of nodes

What an editor is told about the node under its cursor: the kind of the node, its range if it has
one, the key of a pair or the text of a scalar, and the keys of the pairs on the way to it.

* `Described.ofTree`: the description of a node.
* `DocumentSet.describeAt`: what is found at a line and a column.
-/

namespace YamlServer

open Text

inductive Described.Content where
  | key (text : Option String)
  | raw (text : String)
  | none
deriving Repr, DecidableEq

structure Described where
  kind : String
  range : Option Range
  content : Described.Content
deriving Repr, DecidableEq

namespace Described

def contentOf (t : Tree) : Content :=
  match t with
  | .pair .. => .key t.keyText?
  | .scalar _ _ raw _ => .raw raw
  | _ => .none

def ofTree (b : Lines) (t : Tree) : Described :=
  let range := t.range?.map fun (start, stop) =>
    ⟨Range.positionAt b (Int.ofNat start), Range.positionAt b (Int.ofNat stop)⟩
  ⟨t.kindName, range, contentOf t⟩

end Described

/-- What is found at a cursor: a node, whether the cursor is outside all content, and the keys from
the top down to the node; a key that is no scalar is none. -/
structure CursorInfo where
  node : Option Described
  isBlankLine : Bool
  keyPath : List (Option String)
deriving Repr, DecidableEq

namespace DocumentSet

/-- The document around an offset, or else the last one. -/
def documentAt? (s : DocumentSet) (offset : Int) : Option Document :=
  match s.documents.find? fun d => Int.ofNat d.start ≤ offset && offset ≤ Int.ofNat d.stop with
  | some d => some d
  | none => s.documents.getLast?

/-- The keys of the pairs from the root down to a node, the node itself included. -/
def keyPath (visits : List Tree.Visit) (id : Nat) : List (Option String) :=
  (id :: Tree.ancestors visits id).reverse.filterMap fun i =>
    match Tree.nodeAt? visits i with
    | some t => if t.isPair then some t.keyText? else none
    | none => none

/-- What is found at a line and a column; none if there is no such line. -/
def describeAt (s : DocumentSet) (line column : Int) : Option CursorInfo := do
  let b := Lines.ofText s.source
  let offset ← b.offset? line column
  match s.documentAt? offset with
  | none => return ⟨none, true, []⟩
  | some d =>
    let visits := d.visits
    let (id, isBlank) := d.resolve b offset
    let node := (id.bind (Tree.nodeAt? visits)).map (Described.ofTree b)
    return ⟨node, isBlank, (id.map (keyPath visits)).getD []⟩

end DocumentSet
end YamlServer
