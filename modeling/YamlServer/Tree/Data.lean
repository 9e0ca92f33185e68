import YamlServer.Tree.Basic

/-!
# Data of a tree

The plain data that a tree stands for. Aliases are followed; one that leads back to a node being
read has no value and counts as null. A list or a map used as a key becomes its text.

* `Tree.data`: the data of a document's root.
-/

namespace YamlServer
namespace Tree

/-- The key under which a map holds an entry. -/
def keyOf (key : Value) : Value :=
  match key with
  | .list _ | .map _ => .str key.text
  | k => k

/-- The data of the node numbered `id`. The nodes in `active` are being read; each level adds one of
the finitely many nodes, so that their number bounds the depth. -/
def dataFrom (visits : List Visit) : Nat → List Nat → Nat → Tree → Value
  | 0, _, _, _ => .null
  | fuel + 1, active, id, t =>
    if active.contains id then .null
    else
      let part (numbered : Nat × Tree) : Value :=
        dataFrom visits fuel (id :: active) numbered.1 numbered.2
      let partOf (first : Nat) (child : Option Tree) : Value :=
        match child with
        | some c => part (first, c)
        | none => .null
      match t with
      | .scalar _ value _ _ => value
      | .alias _ _ target =>
        match target with
        | some n => partOf n (nodeAt? visits n)
        | none => .null
      | .sequence _ items => .list ((numberFrom (id + 1) items).map part)
      | .map _ entries =>
        .map ((numberFrom (id + 1) entries).foldl (fun acc numbered =>
          match numbered.2 with
          | .pair key value =>
            let first := numbered.1 + 1
            Value.put (keyOf (partOf first key)) (partOf (first + sizeOption key) value) acc
          | _ => acc) [])
      | .pair _ _ => .null

def dataAt (visits : List Visit) (id : Nat) (t : Tree) : Value :=
  dataFrom visits (visits.length + 1) [] id t

/-- The data of a document's root; an empty document is null. -/
def data : Option Tree → Value
  | none => .null
  | some root => dataAt root.visits 0 root

end Tree
end YamlServer
