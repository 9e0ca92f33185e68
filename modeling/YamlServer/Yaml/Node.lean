import YamlServer.Yaml.Event
import YamlServer.Yaml.Tag

/-!
# Composed documents

Events as trees. A node has a number, the place it takes when the document is listed from the top
with each key and value pair as an entry of its own before its key. An alias is a leaf that holds
the number of the node it names.

* `Node`: the trees.
* `Node.walk`: the nodes from the top, pairs left out.
* `Composed`: one document, with the fault that cut it short.
* `Composed.ofEvents`: the documents of an event stream.
-/

namespace YamlServer
namespace Yaml

structure Span where
  start : Mark
  stop : Mark
deriving Repr, DecidableEq, Inhabited

inductive Node where
  | scalar (id : Nat) (span : Span) (tag : String) (content : String) (style : Option Style)
  | sequence (id : Nat) (span : Span) (tag : String) (items : List Node)
  | mapping (id : Nat) (span : Span) (tag : String) (entries : List (Node × Node))
  | alias (id : Nat) (span : Span) (anchor : String) (target : Nat)
deriving Repr, Inhabited

namespace Node

def id : Node → Nat
  | .scalar i .. | .sequence i .. | .mapping i .. | .alias i .. => i

def span : Node → Span
  | .scalar _ s .. | .sequence _ s .. | .mapping _ s .. | .alias _ s .. => s

/-- The tag of a node; an alias has none. -/
def tag? : Node → Option String
  | .scalar _ _ t .. | .sequence _ _ t .. | .mapping _ _ t .. => some t
  | .alias .. => none

def kindName : Node → String
  | .scalar .. => "scalar"
  | .sequence .. => "sequence"
  | .mapping .. => "mapping"
  | .alias .. => "alias"

mutual

def walk : Node → List Node
  | .sequence i s t items => .sequence i s t items :: walkItems items
  | .mapping i s t entries => .mapping i s t entries :: walkEntries entries
  | n => [n]

def walkItems : List Node → List Node
  | [] => []
  | n :: rest => walk n ++ walkItems rest

def walkEntries : List (Node × Node) → List Node
  | [] => []
  | (k, v) :: rest => walk k ++ walk v ++ walkEntries rest

end

end Node

/-! ## Composing -/

/-- The events to come, the next number, and the anchored nodes of the document by name. -/
structure NodeReader where
  events : List Event
  next : Nat
  anchors : List (String × Nat)
deriving Repr

namespace NodeReader

/-- Composing stops at a fault of its own, or where the events end early. -/
inductive Stop where
  | fault (f : Fault)
  | exhausted
deriving Repr, DecidableEq

def number (anchor : Option String) (c : NodeReader) : Nat × NodeReader :=
  let anchors := match anchor with
    | some name => (name, c.next) :: c.anchors
    | none => c.anchors
  (c.next, { c with next := c.next + 1, anchors })

/-- The tag of a scalar: its own, or the one its text implies if it is plain or marked `!`. -/
def scalarTag (p : Properties) (content : String) (style : Option Style) : String :=
  match p.tag with
  | none => if style.isNone then Tag.implicit content else Tag.str
  | some tag => if tag == "!" then Tag.implicit content else tag

/-- The tag of a collection: its own, or the one of its kind. -/
def collectionTag (p : Properties) (kind : String) : String :=
  match p.tag with
  | none => kind
  | some tag => if tag == "!" then kind else tag

def requireNew (p : Properties) (e : Event) (c : NodeReader) : Except Stop Unit :=
  match p.anchor with
  | some name =>
    if (c.anchors.lookup name).isSome then
      .error (.fault ⟨.anchor (.duplicateAnchor name), e.start.index⟩)
    else .ok ()
  | none => .ok ()

mutual

def node : Nat → NodeReader → Except Stop (Node × NodeReader)
  | 0, _ => .error .exhausted
  | fuel + 1, c =>
    match c.events with
    | [] => .error .exhausted
    | e :: rest =>
      let after := { c with events := rest }
      match e.kind with
      | .alias name =>
        match c.anchors.lookup name with
        | none => .error (.fault ⟨.anchor (.undefinedAlias name), e.start.index⟩)
        | some target =>
          let (id, after) := after.number none
          .ok (.alias id ⟨e.start, e.stop⟩ name target, after)
      | .scalar p content style => do
        requireNew p e c
        let (id, after) := after.number p.anchor
        return (.scalar id ⟨e.start, e.stop⟩ (scalarTag p content style) content style, after)
      | .sequenceStart p => do
        requireNew p e c
        let (id, inside) := after.number p.anchor
        let (items, stop, after) ← items fuel inside
        return (.sequence id ⟨e.start, stop⟩ (collectionTag p Tag.seq) items, after)
      | .mappingStart p => do
        requireNew p e c
        let (id, inside) := after.number p.anchor
        let (entries, stop, after) ← entries fuel inside
        return (.mapping id ⟨e.start, stop⟩ (collectionTag p Tag.map) entries, after)
      | _ => .error .exhausted

def items : Nat → NodeReader → Except Stop (List Node × Mark × NodeReader)
  | 0, _ => .error .exhausted
  | fuel + 1, c =>
    match c.events with
    | [] => .error .exhausted
    | e :: rest =>
      if e.kind == .sequenceEnd then .ok ([], e.stop, { c with events := rest })
      else do
        let (item, c) ← node fuel c
        let (more, stop, c) ← items fuel c
        return (item :: more, stop, c)

/-- The pairs of a mapping, and where it ends. A pair takes a number before its key. -/
def entries : Nat → NodeReader → Except Stop (List (Node × Node) × Mark × NodeReader)
  | 0, _ => .error .exhausted
  | fuel + 1, c =>
    match c.events with
    | [] => .error .exhausted
    | e :: rest =>
      if e.kind == .mappingEnd then .ok ([], e.stop, { c with events := rest })
      else do
        let (key, c) ← node fuel { c with next := c.next + 1 }
        let (value, c) ← node fuel c
        let (more, stop, c) ← entries fuel c
        return ((key, value) :: more, stop, c)

end

/-- A bound on the number of steps: an event opens at most one node, and the node and its place in a
collection take a step each. -/
def steps (events : List Event) : Nat :=
  2 * events.length + 1

def root (events : List Event) : Except Stop (Node × NodeReader) :=
  node (steps events) ⟨events, 0, []⟩

end NodeReader

/-! ## Documents -/

/-- One document: its root, the offsets where it starts and ends, and the fault that cut the stream
short in it. -/
structure Composed where
  root : Option Node
  start : Nat
  stop : Nat
  fault : Option Fault
deriving Repr, Inhabited

namespace Composed

def ofFault (size : Nat) (f : Fault) : Composed :=
  ⟨none, f.offset, size, some f⟩

/-- The fault by which a stream stopped, if it is one. -/
def haltFault? : Option Halt → Option Fault
  | some (.fault f) => some f
  | _ => none

/-- The documents from the events on. Composing ends with the first fault, which belongs to the
document being read, or to one of its own between documents. -/
def ofEventsFrom (size : Nat) (halt : Option Halt) : Nat → List Event → List Composed
  | 0, _ => []
  | fuel + 1, events =>
    match events with
    | [] => ((haltFault? halt).map (ofFault size)).toList
    | e :: rest =>
      if e.kind == .streamEnd then []
      else
        match NodeReader.root rest with
        | .error (.fault f) => [⟨none, e.start.index, size, some f⟩]
        | .error .exhausted => [⟨none, e.start.index, size, haltFault? halt⟩]
        | .ok (root, after) =>
          match after.events with
          | [] => [⟨some root, e.start.index, size, haltFault? halt⟩]
          | stop :: more =>
            ⟨some root, e.start.index, stop.stop.index, none⟩ ::
              ofEventsFrom size halt fuel more

/-- The documents of an event stream over a text of `size` characters. -/
def ofEvents (size : Nat) (s : EventStream) : List Composed :=
  ofEventsFrom size s.halt (s.events.length + 1) s.events

end Composed
end Yaml
end YamlServer
