import YamlServer.Document.Basic

/-!
# The node at a position

Which node of a document a cursor belongs to. On a line with content it is the innermost node whose
range holds the offset. On a blank line, or where no node is, it is the node that ends nearest to
the offset, lifted to the ancestor that is indented like the cursor.

* `Document.containing?`: the innermost node around an offset.
* `Document.closest?`: the nearest node.
* `Document.resolve`: the node, and whether it came from the second search.
-/

namespace YamlServer

namespace Tree

mutual

/-- The last node from the top whose range holds an offset. A node with a range that does not hold
it is not looked into; nodes without a range are. -/
def containingFrom (offset : Int) (best : Option Nat) (id : Nat) : Tree → Option Nat
  | .pair key value =>
    containingOption offset (containingOption offset best (id + 1) key)
      (id + 1 + sizeOption key) value
  | .map info entries =>
    let t := Tree.map info entries
    if t.range?.isSome && !t.contains offset then best
    else containingList offset (if t.range?.isSome then some id else best) (id + 1) entries
  | .sequence info items =>
    let t := Tree.sequence info items
    if t.range?.isSome && !t.contains offset then best
    else containingList offset (if t.range?.isSome then some id else best) (id + 1) items
  | t => if t.contains offset then some id else best

def containingOption (offset : Int) (best : Option Nat) (id : Nat) : Option Tree → Option Nat
  | none => best
  | some t => containingFrom offset best id t

def containingList (offset : Int) (best : Option Nat) (id : Nat) : List Tree → Option Nat
  | [] => best
  | t :: rest => containingList offset (containingFrom offset best id t) (id + size t) rest

end

/-- A node without a value: a scalar whose data is null. -/
def isNullScalar : Tree → Bool
  | .scalar _ .null _ _ => true
  | _ => false

end Tree

namespace Document

open Text

def containing? (d : Document) (offset : Int) : Option Nat :=
  match d.root with
  | none => none
  | some root => Tree.containingFrom offset none 0 root

/-- The candidate of the search for the nearest node: its number, how far it ends from the offset,
and where it starts. -/
structure Nearest where
  id : Nat
  distance : Nat
  start : Nat
deriving Repr, DecidableEq

/-- The ranged node that ends nearest to an offset, a later one winning, among nodes that start no
earlier than the one found before. -/
def nearestFrom (offset : Int) (least : Nat) (best : Option Nearest) :
    List Tree.Visit → Option Nearest
  | [] => best
  | v :: rest =>
    match v.node.range? with
    | none => nearestFrom offset least best rest
    | some (start, stop) =>
      let distance := (Int.ofNat stop - offset).natAbs
      let near := match best with
        | some b => distance ≤ b.distance
        | none => true
      if least ≤ start && near then nearestFrom offset start (some ⟨v.id, distance, start⟩) rest
      else nearestFrom offset least best rest

/-- Go up from a node to the first one that starts in the column `indent`, or in the first column,
or has nothing above it. -/
def liftFrom (d : Document) (b : Lines) (visits : List Tree.Visit) (indent : Int) :
    Nat → Option Nat → Option Nat
  | 0, id => id
  | fuel + 1, id =>
    match id.bind fun i => visits[i]? with
    | none => if d.root.isSome then some 0 else none
    | some v =>
      match v.node.range? with
      | some (start, _) =>
        let column := (b.position (Int.ofNat start)).2
        if Int.ofNat column == indent || column == 0 then some v.id
        else
          match v.parent with
          | none => some v.id
          | some p => liftFrom d b visits indent fuel (some p)
      | none =>
        if v.node.isPair then liftFrom d b visits indent fuel v.parent else some v.id

/-- The node nearest to an offset. Where only blanks precede the cursor on its line, it is lifted to
the ancestor with the cursor's indentation, unless it is a scalar without a value. -/
def closest? (d : Document) (b : Lines) (offset : Int) : Option Nat :=
  let visits := d.visits
  let best := (nearestFrom offset d.start none visits).map (·.id)
  let atNull := ((best.bind (Tree.nodeAt? visits)).map Tree.isNullScalar).getD false
  if atNull then best
  else
    let (line, column) := b.position offset
    let indent := indentation (b.content (Int.ofNat line)) (Int.ofNat column)
    if indent == Int.ofNat column then
      d.liftFrom b visits indent (visits.length + 2) best
    else best

/-- The node at an offset, and whether it is only the nearest one. -/
def resolve (d : Document) (b : Lines) (offset : Int) : Option Nat × Bool :=
  let line := (b.position offset).1
  if allBlank (b.content (Int.ofNat line)) then (d.closest? b offset, true)
  else
    match d.containing? offset with
    | some id => (some id, false)
    | none => (d.closest? b offset, true)

end Document
end YamlServer
