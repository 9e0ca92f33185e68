import YamlServer.Value
import YamlServer.Yaml.Token

/-!
# Document trees

The tree of a document as the rest of the library sees it. There are five kinds of nodes: scalars,
key and value pairs, maps of pairs, sequences and aliases. A pair has no place of its own; its key
and its value carry the positions. Nodes are numbered from the top: a node before its children, the
key of a pair before its value. An alias holds the number of the node it stands for.

* `Tree.walk`: the nodes in the order of their numbers.
* `Tree.visits`: the same with the number of each node's parent.
* `Tree.located`: the node that carries the position of a node.
-/

namespace YamlServer

/-- What nodes with a place share: where they start and end, their tag and their comments. -/
structure Info where
  start : Option Nat
  stop : Option Nat
  tag : Option String
  commentBefore : Option String
  comment : Option String
deriving Repr, DecidableEq, Inhabited

inductive Tree where
  | scalar (info : Info) (value : Value) (raw : String) (style : Option Yaml.Style)
  | pair (key value : Option Tree)
  | map (info : Info) (entries : List Tree)
  | sequence (info : Info) (items : List Tree)
  | alias (info : Info) (anchor : String) (target : Option Nat)
deriving Repr, Inhabited

namespace Tree

def info? : Tree → Option Info
  | .scalar i .. | .map i .. | .sequence i .. | .alias i .. => some i
  | .pair .. => none

def start? (t : Tree) : Option Nat :=
  t.info?.bind (·.start)

def stop? (t : Tree) : Option Nat :=
  t.info?.bind (·.stop)

def range? (t : Tree) : Option (Nat × Nat) :=
  match t.start?, t.stop? with
  | some s, some e => some (s, e)
  | _, _ => none

/-- Whether the range of a node holds an offset, its end included. -/
def contains (t : Tree) (offset : Int) : Bool :=
  match t.range? with
  | some (s, e) => Int.ofNat s ≤ offset && offset ≤ Int.ofNat e
  | none => false

def kindName : Tree → String
  | .scalar .. => "scalar"
  | .pair .. => "mapping"
  | .map .. => "map"
  | .sequence .. => "sequence"
  | .alias .. => "alias"

def children : Tree → List Tree
  | .pair key value => key.toList ++ value.toList
  | .map _ entries => entries
  | .sequence _ items => items
  | _ => []

def keyText? : Tree → Option String
  | .pair (some (.scalar _ _ raw _)) _ => some raw
  | _ => none

def isPair : Tree → Bool
  | .pair .. => true
  | _ => false

/-- The node that carries a node's position: the key of a pair, any other node itself. -/
def located : Tree → Tree
  | .pair (some key) _ => key
  | t => t

mutual

def size : Tree → Nat
  | .pair key value => 1 + sizeOption key + sizeOption value
  | .map _ entries => 1 + sizeList entries
  | .sequence _ items => 1 + sizeList items
  | _ => 1

def sizeOption : Option Tree → Nat
  | none => 0
  | some t => size t

def sizeList : List Tree → Nat
  | [] => 0
  | t :: rest => size t + sizeList rest

end

def numberFrom (id : Nat) : List Tree → List (Nat × Tree)
  | [] => []
  | t :: rest => (id, t) :: numberFrom (id + size t) rest

def numberedChildren (id : Nat) (t : Tree) : List (Nat × Tree) :=
  numberFrom (id + 1) t.children

/-- A node of a tree: its number, its parent's number, and the tree below it. -/
structure Visit where
  id : Nat
  parent : Option Nat
  node : Tree
deriving Repr, Inhabited

mutual

def visitsFrom (parent : Option Nat) (id : Nat) : Tree → List Visit
  | .pair key value =>
    ⟨id, parent, .pair key value⟩ ::
      (visitsOption (some id) (id + 1) key ++
        visitsOption (some id) (id + 1 + sizeOption key) value)
  | .map i entries => ⟨id, parent, .map i entries⟩ :: visitsList (some id) (id + 1) entries
  | .sequence i items => ⟨id, parent, .sequence i items⟩ :: visitsList (some id) (id + 1) items
  | t => [⟨id, parent, t⟩]

def visitsOption (parent : Option Nat) (id : Nat) : Option Tree → List Visit
  | none => []
  | some t => visitsFrom parent id t

def visitsList (parent : Option Nat) (id : Nat) : List Tree → List Visit
  | [] => []
  | t :: rest => visitsFrom parent id t ++ visitsList parent (id + size t) rest

end

def visits (t : Tree) : List Visit :=
  visitsFrom none 0 t

def walk (t : Tree) : List Tree :=
  t.visits.map (·.node)

def visitsOf : Option Tree → List Visit
  | none => []
  | some t => t.visits

def nodeAt? (visits : List Visit) (id : Nat) : Option Tree :=
  (visits[id]?).map (·.node)

def parentOf? (visits : List Visit) (id : Nat) : Option Nat :=
  (visits[id]?).bind (·.parent)

/-- The chain of parents, nearest first. Parents have smaller numbers, so that `id` steps
suffice. -/
def ancestorsFrom (visits : List Visit) : Nat → Nat → List Nat
  | 0, _ => []
  | fuel + 1, id =>
    match parentOf? visits id with
    | some p => p :: ancestorsFrom visits fuel p
    | none => []

/-- The proper ancestors of a node, nearest first. -/
def ancestors (visits : List Visit) (id : Nat) : List Nat :=
  ancestorsFrom visits visits.length id

end Tree
end YamlServer
