import YamlServer.Value

/-!
# Equality of instances

Equality as JSON Schema has it: numbers are equal by size, truth values are no numbers, lists are
equal item by item and maps key by key.

* `Schema.equal`: equality of two values.
* `Schema.allDistinct`: whether no two items of a list are equal. Lists whose items can be put in
  order are only compared with their neighbours there.
-/

namespace YamlServer
namespace Schema

/-- Equality of numbers by size; `nanSame` says whether two not-a-numbers are the same object. -/
def equalNumber (nanSame : Bool) : Value → Value → Bool
  | .float .nan, .float .nan => nanSame
  | a, b =>
    match a.place?, b.place? with
    | some p, some q => Binary64.comparePlaces p q == .eq
    | _, _ => false

mutual

def equal (nanSame : Bool) : Value → Value → Bool
  | .null, .null => true
  | .bool a, .bool b => a == b
  | .bool _, _ => false
  | _, .bool _ => false
  | .str s, .str t => s == t
  | .list xs, .list ys => equalLists nanSame xs ys
  | .map es, .map fs => es.length == fs.length && equalEntries nanSame es fs
  | a, b => equalNumber nanSame a b

def equalLists (nanSame : Bool) : List Value → List Value → Bool
  | [], [] => true
  | x :: xs, y :: ys => equal nanSame x y && equalLists nanSame xs ys
  | _, _ => false

/-- Every entry of the first map has its key in the second, with an equal value. -/
def equalEntries (nanSame : Bool) : List (Value × Value) → List (Value × Value) → Bool
  | [], _ => true
  | (k, v) :: es, fs =>
    (match fs.find? fun f => Value.same f.1 k with
     | some f => equal nanSame v f.2
     | none => false) && equalEntries nanSame es fs

end

mutual

/-- Whether a value comes before another, if they can be put in order: numbers by size, texts by
their characters, lists by their first items that differ. A truth value inside a list counts as a
number there. -/
def before? : Value → Value → Option Bool
  | .str s, .str t => some (s < t)
  | .list xs, .list ys => beforeLists? xs ys
  | .float .nan, b => if b.place?.isSome || b.sameNumber (.float .nan) then some false else none
  | a, .float .nan => if a.place?.isSome then some false else none
  | a, b =>
    match a.place?, b.place? with
    | some p, some q => some (Binary64.comparePlaces p q == .lt)
    | _, _ => none

def beforeLists? : List Value → List Value → Option Bool
  | [], [] => some false
  | [], _ :: _ => some true
  | _ :: _, [] => some false
  | x :: xs, y :: ys => if Value.same x y then beforeLists? xs ys else before? x y

end

/-- The values that go on with the order of the first two, from a first one on, and the others. -/
def runAfter (descending : Bool) : Value → List Value → Option (List Value × List Value)
  | _, [] => some ([], [])
  | x, y :: rest => do
    if (← before? y x) == descending then
      let (run, others) ← runAfter descending y rest
      some (y :: run, others)
    else some ([], y :: rest)

/-- Where a value belongs in an ordered list, between two places, by halving the distance. -/
def placeIn (x : Value) (sorted : List Value) : Nat → Nat → Nat → Option Nat
  | 0, low, _ => some low
  | fuel + 1, low, high =>
    if low < high then do
      let middle := (low + high) / 2
      if ← before? x (sorted.getD middle .null) then placeIn x sorted fuel low middle
      else placeIn x sorted fuel (middle + 1) high
    else some low

def insertOrdered (sorted : List Value) (x : Value) : Option (List Value) := do
  let place ← placeIn x sorted sorted.length 0 sorted.length
  some (sorted.take place ++ x :: sorted.drop place)

/-- A list in order; none if two of the items that are compared cannot be, as truth values cannot.
Which ones are compared matters only beside not-a-numbers: the run at the front stays as it is or is
turned round, and the other items are put into it one by one. -/
def ordered? (items : List Value) : Option (List Value) :=
  if items.length > 1 && items.any (fun | .bool _ => true | _ => false) then none
  else
    match items with
    | x :: y :: rest => do
      let descending ← before? y x
      let (run, others) ← runAfter descending x (y :: rest)
      let sorted := if descending then (x :: run).reverse else x :: run
      others.foldlM insertOrdered sorted
    | few => some few

def neighboursDiffer : List Value → Bool
  | x :: y :: rest => !equal true x y && neighboursDiffer (y :: rest)
  | _ => true

def pairwiseDiffer : List Value → Bool
  | [] => true
  | x :: rest => !rest.any (equal true x) && pairwiseDiffer rest

def allDistinct (items : List Value) : Bool :=
  match ordered? items with
  | some sorted => neighboursDiffer sorted
  | none => pairwiseDiffer items

end Schema
end YamlServer
