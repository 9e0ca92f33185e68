import YamlServer.Text.Base64
import YamlServer.Yaml.Node
import YamlServer.Yaml.Scalar

/-!
# Objects of a document

The data of a text with a single document, with every standard type. A collection that is named by
several aliases is one object, which may hold itself; collections are therefore cells with numbers,
and their parts refer to them.

* `Objects.ofChars`: the objects of a text.
* `Objects.expand`: an object as a value, down to a depth.
-/

namespace YamlServer
namespace Yaml

/-- A part of an object: a value without parts, or the cell of a collection. -/
inductive Item where
  | atom (v : Value)
  | cell (id : Nat)
deriving Repr, Inhabited

/-- A collection. Keys have no parts. -/
inductive Cell where
  | list (items : List Item)
  | map (entries : List (Value × Item))
  | pairs (entries : List (Item × Item))
  | set (members : List Value)
deriving Repr, Inhabited

structure Objects where
  root : Item
  cells : List (Nat × Cell)
deriving Repr, Inhabited

/-- Why a text has no data: reading stops, a scalar has no value under its tag, a timestamp has not
the form of one, or names no day or time, or is not a scalar at all. -/
inductive ObjectFailure where
  | halt (h : Halt)
  | scalar (f : Scalar.Fault)
  | notTimestamp
  | impossibleDate
  | timestampNode
deriving Repr, DecidableEq

/-! ## Nodes by number -/

/-- What a node holds; its parts are numbers of nodes, aliases being replaced by what they name. -/
inductive Body where
  | scalar (content : String)
  | sequence (items : List Nat)
  | mapping (entries : List (Nat × Nat))
deriving Repr, DecidableEq

structure Record where
  start : Nat
  tag : String
  body : Body
deriving Repr, DecidableEq

namespace Body

def kindName : Body → String
  | .scalar _ => "scalar"
  | .sequence _ => "sequence"
  | .mapping _ => "mapping"

end Body

def Node.targetId : Node → Nat
  | .alias _ _ _ target => target
  | n => n.id

/-- The record of a node; an alias has none. -/
def Node.record? : Node → Option (Nat × Record)
  | .scalar id span tag content _ => some (id, ⟨span.start.index, tag, .scalar content⟩)
  | .sequence id span tag items =>
    some (id, ⟨span.start.index, tag, .sequence (items.map targetId)⟩)
  | .mapping id span tag entries =>
    some (id, ⟨span.start.index, tag,
      .mapping (entries.map fun (k, v) => (k.targetId, v.targetId))⟩)
  | .alias .. => none

abbrev Records := List (Nat × Record)

namespace Records

def ofNode (root : Node) : Records :=
  root.walk.filterMap Node.record?

/-- The record of a number; every number that is used has one. -/
def get (rs : Records) (id : Nat) : Record :=
  (rs.lookup id).getD ⟨0, "", .scalar ""⟩

def update (id : Nat) (f : Record → Record) (rs : Records) : Records :=
  rs.map fun (i, r) => if i == id then (i, f r) else (i, r)

def entries (rs : Records) (id : Nat) : List (Nat × Nat) :=
  match (rs.get id).body with
  | .mapping es => es
  | _ => []

def setEntries (id : Nat) (es : List (Nat × Nat)) (rs : Records) : Records :=
  rs.update id fun r => { r with body := .mapping es }

def fault (rs : Records) (p : DataProblem) (id : Nat) : ObjectFailure :=
  .halt (.fault ⟨.data p, (rs.get id).start⟩)

/-! ## Merge keys -/

mutual

/-- Replace the merge keys of a mapping by the pairs they bring, from its pair `index` on. The pairs
in `merged` have been brought so far and come first in the end. A default-value key becomes text. -/
def flattenFrom : Nat → Nat → Nat → List (Nat × Nat) → Records → Except ObjectFailure Records
  | 0, _, _, _, rs => .ok rs
  | fuel + 1, id, index, merged, rs =>
    match (rs.entries id)[index]? with
    | none =>
      if merged.isEmpty then .ok rs else .ok (rs.setEntries id (merged ++ rs.entries id))
    | some (key, value) =>
      if (rs.get key).tag == Tag.merge then
        let rs := rs.setEntries id ((rs.entries id).eraseIdx index)
        match (rs.get value).body with
        | .mapping _ => do
          let rs ← flattenFrom fuel value 0 [] rs
          flattenFrom fuel id index (merged ++ rs.entries value) rs
        | .sequence items => do
          let (rs, brought) ← flattenAll fuel items rs
          flattenFrom fuel id index (merged ++ brought) rs
        | .scalar _ => .error (rs.fault (.mergeValue "scalar") value)
      else if (rs.get key).tag == Tag.value then
        flattenFrom fuel id (index + 1) merged
          (rs.update key fun r => { r with tag := Tag.str })
      else flattenFrom fuel id (index + 1) merged rs

/-- Flatten a list of mappings; the pairs of the later ones come first. -/
def flattenAll : Nat → List Nat → Records → Except ObjectFailure (Records × List (Nat × Nat))
  | 0, _, rs => .ok (rs, [])
  | _, [], rs => .ok (rs, [])
  | fuel + 1, item :: rest, rs =>
    match (rs.get item).body with
    | .mapping _ => do
      let rs ← flattenFrom fuel item 0 [] rs
      let own := rs.entries item
      let (rs, brought) ← flattenAll fuel rest rs
      return (rs, brought ++ own)
    | body => .error (rs.fault (.mergeItem body.kindName) item)

end

def partCount : Records → Nat
  | [] => 0
  | (_, r) :: rest =>
    let own := match r.body with
      | .scalar _ => 1
      | .sequence items => 1 + items.length
      | .mapping es => 1 + es.length
    own + partCount rest

/-- Replace the merge keys of a mapping. Merging may double a mapping at each of its merge keys,
which bounds the number of steps. -/
def flatten (id : Nat) (rs : Records) : Except ObjectFailure Records :=
  flattenFrom (Nat.pow 2 (rs.partCount + 1)) id 0 [] rs

end Records

/-! ## Scalars -/

/-- The text of a node used as a scalar. A mapping stands for the value of its default-value key. -/
def scalarText (rs : Records) : Nat → Nat → Except ObjectFailure String
  | 0, id => .error (rs.fault (.expectedScalar (rs.get id).body.kindName) id)
  | fuel + 1, id =>
    match (rs.get id).body with
    | .scalar content => .ok content
    | .sequence _ => .error (rs.fault (.expectedScalar "sequence") id)
    | .mapping es =>
      match es.find? fun (k, _) => (rs.get k).tag == Tag.value with
      | some (_, value) => scalarText rs fuel value
      | none => .error (rs.fault (.expectedScalar "mapping") id)

def digitsNat (cs : List Char) : Nat :=
  Text.ofDigits 10 0 (cs.map fun c => c.toNat - '0'.toNat)

def microseconds (fraction : List Char) : Nat :=
  let ds := fraction.take 6
  digitsNat (ds ++ List.replicate (6 - ds.length) '0')

def momentOf (p : Tag.TimestampParts) : Except ObjectFailure Moment :=
  let date : Date := ⟨digitsNat p.year, digitsNat p.month, digitsNat p.day⟩
  match p.time with
  | none => if date.isValid then .ok (.date date) else .error .impossibleDate
  | some (hour, minute, second, fraction) =>
    let clock : Clock :=
      ⟨digitsNat hour, digitsNat minute, digitsNat second, microseconds fraction⟩
    let offset : Option Int := p.zone.map fun
      | none => 0
      | some (negative, hours, minutes) =>
        let seconds := Int.ofNat (digitsNat hours * 3600 + digitsNat minutes * 60)
        if negative then -seconds else seconds
    let near : Bool := (offset.map fun o => decide (o.natAbs < 86400)).getD true
    if date.isValid && clock.isValid && near then .ok (.dateTime date clock offset)
    else .error .impossibleDate

def timestampValue (content : String) : Except ObjectFailure Value :=
  match Tag.timestamp? (Tag.dropFinalFeed content.toList) with
  | none => .error .notTimestamp
  | some parts => (momentOf parts).map Value.moment

/-- The value of a node under the tag of a type without parts; none under any other tag. -/
def atomOf? (rs : Records) (id : Nat) : Option (Except ObjectFailure Value) :=
  let tag := (rs.get id).tag
  let text := scalarText rs (rs.length + 1) id
  if tag == Tag.standard "binary" then
    some do
      match Base64.decode (← text).toList with
      | .ok data => return .bytes data
      | .error f =>
        match f with
        | .notAscii .. => .error (rs.fault (.notAscii f.message) id)
        | _ => .error (rs.fault (.notBase64 f.message) id)
  else if tag == Tag.timestamp then
    some do
      let _ ← text
      match (rs.get id).body with
      | .scalar content => timestampValue content
      | _ => .error .timestampNode
  else if (Scalar.plain? tag "").isSome then
    some do
      let content ← text
      match Scalar.plain? tag content with
      | some (.ok v) => return v
      | some (.error f) => .error (.scalar f)
      | none => return .null
  else none

/-! ## Collections -/

inductive CellKind where
  | list
  | map
  | set
  | orderedMap
  | pairs
deriving Repr, DecidableEq

def CellKind.ofTag? (tag : String) : Option CellKind :=
  if tag == Tag.seq then some .list
  else if tag == Tag.map then some .map
  else if tag == Tag.standard "set" then some .set
  else if tag == Tag.standard "omap" then some .orderedMap
  else if tag == Tag.standard "pairs" then some .pairs
  else none

/-- The state of making objects: the nodes, what has been made of them, the collections that wait to
be filled, first come first served, and the filled ones. -/
structure Making where
  records : Records
  made : List (Nat × Item)
  waiting : List Nat
  cells : List (Nat × Cell)
deriving Repr

namespace Making

/-- The object of a node. A collection is filled later. -/
def item (id : Nat) (m : Making) : Except ObjectFailure (Item × Making) :=
  match m.made.lookup id with
  | some i => .ok (i, m)
  | none =>
    match atomOf? m.records id with
    | some value => do
      let v ← value
      return (.atom v, { m with made := (id, .atom v) :: m.made })
    | none =>
      let tag := (m.records.get id).tag
      match CellKind.ofTag? tag with
      | some _ =>
        .ok (.cell id, { m with made := (id, .cell id) :: m.made, waiting := m.waiting ++ [id] })
      | none => .error (m.records.fault (.unknownTag tag) id)

def items : List Nat → Making → Except ObjectFailure (List Item × Making)
  | [], m => .ok ([], m)
  | id :: rest, m => do
    let (i, m) ← item id m
    let (more, m) ← items rest m
    return (i :: more, m)

/-- Set a key of a map: an equal key keeps its spelling and its place. -/
def putItem (key : Value) (i : Item) : List (Value × Item) → List (Value × Item)
  | [] => [(key, i)]
  | (k, old) :: rest =>
    if Value.same k key then (k, i) :: rest else (k, old) :: putItem key i rest

/-- The entries of a mapping, in turn the key and the value of each pair. Keys have no parts. -/
def mapEntries (acc : List (Value × Item)) :
    List (Nat × Nat) → Making → Except ObjectFailure (List (Value × Item) × Making)
  | [], m => .ok (acc, m)
  | (key, value) :: rest, m => do
    let (k, m) ← item key m
    match k with
    | .cell _ => .error (m.records.fault .unhashableKey key)
    | .atom k =>
      let (v, m) ← item value m
      mapEntries (putItem k v acc) rest m

/-- The entries of a node that must be a mapping, its merge keys replaced. -/
def mappingOf (id : Nat) (m : Making) : Except ObjectFailure (List (Value × Item) × Making) :=
  match (m.records.get id).body with
  | .mapping _ => do
    let rs ← m.records.flatten id
    mapEntries [] (rs.entries id) { m with records := rs }
  | body => .error (m.records.fault (.expectedMapping body.kindName) id)

def pairsOf (itemProblem : String → DataProblem) (countProblem : Nat → DataProblem) :
    List Nat → Making → Except ObjectFailure (List (Item × Item) × Making)
  | [], m => .ok ([], m)
  | id :: rest, m =>
    match (m.records.get id).body with
    | .mapping [(key, value)] => do
      let (k, m) ← item key m
      let (v, m) ← item value m
      let (more, m) ← pairsOf itemProblem countProblem rest m
      return ((k, v) :: more, m)
    | .mapping es => .error (m.records.fault (countProblem es.length) id)
    | body => .error (m.records.fault (itemProblem body.kindName) id)

def content (id : Nat) (m : Making) : Except ObjectFailure (Cell × Making) :=
  let r := m.records.get id
  match CellKind.ofTag? r.tag, r.body with
  | some .map, _ => do
    let (es, m) ← mappingOf id m
    return (.map es, m)
  | some .set, _ => do
    let (es, m) ← mappingOf id m
    return (.set (es.map (·.1)), m)
  | some .orderedMap, .sequence parts => do
    let (es, m) ← pairsOf .orderedMapItem .orderedMapItems parts m
    return (.pairs es, m)
  | some .orderedMap, body => .error (m.records.fault (.orderedMapSequence body.kindName) id)
  | some .pairs, .sequence parts => do
    let (es, m) ← pairsOf .pairsItem .pairsItems parts m
    return (.pairs es, m)
  | some .pairs, body => .error (m.records.fault (.pairsSequence body.kindName) id)
  | _, .sequence parts => do
    let (is, m) ← items parts m
    return (.list is, m)
  | _, body => .error (m.records.fault (.expectedSequence body.kindName) id)

/-- Fill the waiting collections. Each node waits at most once. -/
def fill : Nat → Making → Except ObjectFailure Making
  | 0, m => .ok m
  | fuel + 1, m =>
    match m.waiting with
    | [] => .ok m
    | id :: rest => do
      let (c, m) ← content id { m with waiting := rest }
      fill fuel { m with cells := m.cells ++ [(id, c)] }

end Making

/-! ## Texts -/

/-- The only document of a text; none if there is no document. A second one is a fault. -/
def singleDocument (cs : List Char) : Except Halt (Option Node) :=
  let stream := EventStream.ofTokens (TokenStream.ofChars cs)
  let halted : Except Halt (Option Node) := match stream.halt with
    | some h => .error h
    | none => .ok none
  match stream.events with
  | [] => halted
  | e :: rest =>
    if e.kind == .streamEnd then .ok none
    else
      match NodeReader.root rest with
      | .error (.fault f) => .error (.fault f)
      | .error .exhausted => halted
      | .ok (root, after) =>
        match after.events.drop 1 with
        | [] => halted
        | next :: _ =>
          if next.kind == .streamEnd then .ok (some root)
          else .error (.fault ⟨.anchor .secondDocument, next.start.index⟩)

namespace Objects

def ofNode (root : Node) : Except ObjectFailure Objects := do
  let records := Records.ofNode root
  let (i, m) ← Making.item root.id ⟨records, [], [], []⟩
  let m ← m.fill (records.length + 1)
  return ⟨i, m.cells⟩

/-- The objects of a text; an empty text is null. -/
def ofChars (cs : List Char) : Except ObjectFailure Objects :=
  match singleDocument cs with
  | .error h => .error (.halt h)
  | .ok none => .ok ⟨.atom .null, []⟩
  | .ok (some root) => ofNode root

def cell? (o : Objects) (id : Nat) : Option Cell :=
  o.cells.lookup id

def entries? (o : Objects) : Item → Option (List (Value × Item))
  | .atom _ => none
  | .cell id =>
    match o.cell? id with
    | some (.map es) => some es
    | _ => none

/-- An item as a value; collections deeper than `depth` are left empty. -/
def expand (o : Objects) : Nat → Item → Value
  | _, .atom v => v
  | 0, .cell id =>
    match o.cell? id with
    | some (.map _) => .map []
    | some (.set _) => .set []
    | _ => .list []
  | depth + 1, .cell id =>
    match o.cell? id with
    | some (.list items) => .list (items.map (expand o depth))
    | some (.map es) => .map (es.map fun (k, v) => (k, expand o depth v))
    | some (.pairs es) =>
      .list (es.map fun (k, v) => .tuple [expand o depth k, expand o depth v])
    | some (.set members) => .set members
    | none => .null

end Objects
end Yaml
end YamlServer
