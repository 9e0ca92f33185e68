import YamlServer.Document.Basic
import YamlServer.Graph.Basic

/-!
# Documents against a graph

Every key of a document is looked up in a graph. A key must have an entry, the path of keys down to
it must exist in the graph, and the value of a scalar must be of one of the types that the key's
definitions at that place declare. Below an unknown key, and in a key that is not a scalar, nothing
is looked at.

* `Graph.search`: the definitions of a key at the end of a path.
* `Graph.matchNode`: the definitions that apply to a node.
* `Graph.validate`: the findings about a document.
-/

namespace YamlServer

namespace Graph

/-! ## Paths -/

/-- Paths to try and paths tried. A path lists its keys from the last one back. -/
structure Frontier where
  waiting : List (List Value)
  seen : List (List Value)
deriving Repr

/-- Extend a path by the children of a definition, each new path once. -/
def extendBy (path : List Value) : List Value → Frontier → Except GraphFault Frontier
  | [], f => .ok f
  | child :: rest, f =>
    let candidate := child :: path
    if !child.isKey then .error .compositeKey
    else if f.seen.any (Value.sameList candidate) then extendBy path rest f
    else extendBy path rest ⟨f.waiting ++ [candidate], f.seen ++ [candidate]⟩

def extend (path : List Value) (ds : List Definition) (f : Frontier) :
    Except GraphFault Frontier :=
  ds.foldlM (fun f d => extendBy path d.children f) f

/-- Try the waiting paths in turn. A path of the wanted length that ends in the target is the
answer; one that follows the route is extended. -/
def searchFrom (g : Graph) (route : List Value) (target : Value) (length : Int) :
    Nat → Frontier → Except GraphFault (List Definition)
  | 0, _ => .ok []
  | fuel + 1, f =>
    match f.waiting with
    | [] => .ok []
    | [] :: rest => searchFrom g route target length fuel { f with waiting := rest }
    | (last :: before) :: rest =>
      let size := before.length + 1
      let follows := match route[size - 1]? with
        | some key => Value.same last key
        | none => false
      if Int.ofNat size == length && Value.same last target then g.definitions last
      else if follows then do
        let ds ← g.definitions last
        let next ← extend (last :: before) ds { f with waiting := rest }
        searchFrom g route target length fuel next
      else searchFrom g route target length fuel { f with waiting := rest }

def childCount (g : Graph) : Nat :=
  (g.entries.flatMap fun e => e.2.flatMap fun d => d.children).length

/-- The definitions of `target` at the end of a path of `length` keys whose front follows `route`,
the topmost key first; none if there is no such path. Only paths on the route are extended, at most
one of each length, which bounds the number of steps. -/
def search (g : Graph) (route : List Value) (target : Value) (length : Int) :
    Except GraphFault (List Definition) :=
  match route with
  | [] => .error .emptyRoute
  | top :: _ => do
    let start ← extend [top] ((g.get? top).getD []) ⟨[], []⟩
    searchFrom g route target length ((route.length + 1) * (g.childCount + 1) + 1) start

/-! ## Nodes -/

/-- The key of a pair as a value; a key that is not a scalar is null. -/
def keyValue (t : Tree) : Value :=
  match t.keyText? with
  | some s => .str s
  | none => .null

/-- The keys of the pairs around a node, nearest first. -/
def ancestorKeys (visits : List Tree.Visit) (id : Nat) : List Value :=
  (Tree.ancestors visits id).filterMap fun a =>
    match Tree.nodeAt? visits a with
    | some t => if t.isPair then some (keyValue t) else none
    | none => none

/-- The definitions for a node's key at its place; none if no path of the graph leads there. -/
def matchNode (g : Graph) (visits : List Tree.Visit) (id : Nat) (t : Tree) :
    Except GraphFault (List Definition) :=
  match ancestorKeys visits id with
  | [] => .ok (if t.isPair then (g.get? (keyValue t)).getD [] else [])
  | nearest :: outer =>
    let route := (nearest :: outer).reverse
    let size := Int.ofNat route.length
    if t.isPair then g.search route (keyValue t) (size + 1)
    else if outer.isEmpty then .ok ((g.get? nearest).getD [])
    else g.search route nearest size

end Graph

/-! ## Findings -/

inductive SchemaWarning where
  | unknownKey
  | schemaMismatch
  | typeMismatch
deriving Repr, DecidableEq

def SchemaWarning.code : SchemaWarning → String
  | .unknownKey => "UnknownKey"
  | .schemaMismatch => "SchemaMismatch"
  | .typeMismatch => "TypeMismatch"

/-- A finding about a node: its number, its place, and the line counted on the way to it. -/
structure SchemaFinding where
  node : Nat
  start : Option Nat
  stop : Option Nat
  message : String
  line : Nat
  warning : SchemaWarning
deriving Repr, DecidableEq

namespace Graph

def typeNames (ds : List Definition) : List String :=
  let names := ds.map fun d => d.type.name
  (names.mergeSort fun a b => a ≤ b).eraseDups

/-- The complaint about a key and its value, if there is one. Only the values of scalars have their
types checked. -/
def complaint? (g : Graph) (visits : List Tree.Visit) (id : Nat) (t : Tree) (key : String)
    (value : Option Value) : Except GraphFault (Option (SchemaWarning × String)) :=
  if !g.contains (.str key) then
    .ok (some (.unknownKey, "Unknown key \"" ++ key ++ "\""))
  else do
    let ds ← g.matchNode visits id t
    if ds.isEmpty then
      return some (.schemaMismatch, "\"" ++ key ++ "\" is not allowed at this position")
    else
      match value with
      | some v =>
        if ds.any fun d => d.accepts v then return none
        else
          return some (.typeMismatch, "Value of \"" ++ key ++ "\" should be of type " ++
            Value.joined " | " (typeNames ds))
      | none => return none

structure Report where
  lines : Nat
  findings : List SchemaFinding
deriving Repr

def Report.note (r : Report) (id : Nat) (t : Tree) (c : Option (SchemaWarning × String)) : Report :=
  match c with
  | none => r
  | some (warning, message) =>
    let place := t.located
    { r with findings :=
        r.findings ++ [⟨id, place.start?, place.stop?, message, r.lines - 1, warning⟩] }

/-- The findings about a tree. `key` is the key of the pair whose value the node is, if it is one.
The value of a pair follows its key; keys are looked at through their pair. Scalars and maps count
as lines. -/
def checkFrom (g : Graph) (visits : List Tree.Visit) :
    Nat → Option String → Nat → Tree → Report → Except GraphFault Report
  | 0, _, _, _, r => .ok r
  | fuel + 1, key, id, t, r =>
    let below (r : Report) : Except GraphFault Report :=
      (t.numberedChildren id).foldlM (fun r (i, c) => checkFrom g visits fuel none i c r) r
    match t with
    | .scalar _ value _ _ =>
      match key with
      | some k => do
        let c ← complaint? g visits id t k (some value)
        let r := r.note id t c
        return { r with lines := r.lines + 1 }
      | none => .ok { r with lines := r.lines + 1 }
    | .pair keyNode value =>
      match t.keyText? with
      | none => .ok r
      | some k => do
        let c ← complaint? g visits id t k none
        let r := r.note id t c
        if (c.map (·.1)) == some .unknownKey then return r
        else
          match value with
          | none => return r
          | some v => checkFrom g visits fuel (some k) (id + 1 + Tree.sizeOption keyNode) v r
    | .map _ _ => below { r with lines := r.lines + 1 }
    | _ => below r

/-- The findings about a document, and the number of lines counted. -/
def validate (g : Graph) (d : Document) : Except GraphFault Report :=
  match d.root with
  | none => .ok ⟨0, []⟩
  | some root =>
    let visits := d.visits
    checkFrom g visits (visits.length + 1) none 0 root ⟨0, []⟩

end Graph
end YamlServer
