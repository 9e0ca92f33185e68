import YamlServer.Proofs.Stack
import YamlServer.Proofs.Tree.Place
import YamlServer.Tree.OfNode

/-!
# Trees that need no table

Seen from the tree, a conversion does not depend on its table as long as every alias finds what it
names. Then an alias keeps the number that it was composed with, and the tree of a node is built
from the trees of the nodes below it alone. Most facts on trees are proved of this form; that the
conversion has it is shown in `YamlServer.Proofs.Tree.Converter`.

* `Tree.image`: the tree of a node whose aliases keep their numbers.
* `Yaml.Node.walk_eq_drain`: the nodes from the top are listed by a loop with a stack.
-/

namespace YamlServer

namespace Yaml
namespace Node

/-- Induction on a node by the nodes right below it. -/
theorem induction_below {motive : Node → Prop}
    (scalar : ∀ id span tag content style, motive (.scalar id span tag content style))
    (sequence : ∀ id span tag items, (∀ n ∈ items, motive n) → motive (.sequence id span tag items))
    (mapping : ∀ id span tag entries, (∀ e ∈ entries, motive e.1 ∧ motive e.2) →
      motive (.mapping id span tag entries))
    (leaf : ∀ id span anchor target, motive (.alias id span anchor target)) (n : Node) :
    motive n := by
  -- A node holds nodes in lists and in pairs, each with a motive of its own.
  refine @Node.rec motive (fun items => ∀ n ∈ items, motive n)
    (fun entries => ∀ e ∈ entries, motive e.1 ∧ motive e.2) (fun e => motive e.1 ∧ motive e.2)
    scalar sequence mapping leaf ?_ ?_ ?_ ?_ ?_ n
  · intro m hm
    cases hm
  · intro first rest hfirst hrest m hm
    rcases List.mem_cons.1 hm with rfl | hm
    · exact hfirst
    · exact hrest m hm
  · intro e he
    cases he
  · intro first rest hfirst hrest e he
    rcases List.mem_cons.1 he with rfl | he
    · exact hfirst
    · exact hrest e he
  · intro key value hkey hvalue
    exact ⟨hkey, hvalue⟩

@[simp]
theorem walkItems_eq (items : List Node) : walkItems items = items.flatMap walk := by
  induction items with
  | nil => rfl
  | cons n rest ih => rw [walkItems, ih, List.flatMap_cons]

@[simp]
theorem walkEntries_eq (entries : List (Node × Node)) :
    walkEntries entries = entries.flatMap fun e => walk e.1 ++ walk e.2 := by
  induction entries with
  | nil => rfl
  | cons e rest ih => rw [walkEntries, ih, List.flatMap_cons]

def children : Node → List Node
  | .sequence _ _ _ items => items
  | .mapping _ _ _ entries => entries.flatMap fun e => [e.1, e.2]
  | _ => []

theorem walk_eq (n : Node) : n.walk = n :: n.children.flatMap walk := by
  cases n with
  | sequence id span tag items => simp [walk, children]
  | mapping id span tag entries => simp [walk, children, List.flatMap_assoc]
  | _ => rfl

def branching : Branching Node where
  parts := children
  weight n := n.walk.length
  lt n := by
    have htotal : ∀ ns : List Node,
        ns.foldr (fun c k => c.walk.length + k) 0 = (ns.flatMap walk).length := by
      intro ns
      induction ns with
      | nil => rfl
      | cons c ns ih => rw [List.foldr_cons, ih, List.flatMap_cons, List.length_append]
    rw [htotal, walk_eq n]
    exact Nat.lt_succ_self _

/-- The nodes from the top are listed by a loop that enters every node. -/
theorem walk_eq_drain (root : Option Node) :
    root.toList.flatMap walk =
      branching.drain (m := Id) (fun nodes n => (nodes ++ [n], true)) [] root.toList := by
  have hdown : ∀ (nodes : List Node) (n : Node), nodes ++ n.walk =
      if true then n.children.foldl (fun nodes n => nodes ++ n.walk) (nodes ++ [n])
      else nodes ++ [n] := by
    intro nodes n
    simp [walk_eq n, List.foldl_append_eq_append, List.flatMap_def]
  rw [branching.drain_eq_foldl hdown]
  cases root <;> simp

end Node
end Yaml

namespace Tree

open Yaml

mutual

def image (a : Attached) : Node → Except Scalar.Fault Tree
  | .scalar i s tag content style => do
    let value ← scalarValue tag content
    return .scalar (infoOf a (.scalar i s tag content style)) value content style
  | .sequence i s tag items => do
    let children ← imageItems a items
    return .sequence (infoOf a (.sequence i s tag items)) children
  | .mapping i s tag entries => do
    let children ← imageEntries a entries
    return .map (infoOf a (.mapping i s tag entries)) children
  | .alias i s anchor target =>
    .ok (.alias (infoOf a (.alias i s anchor target)) anchor (some target))

def imageItems (a : Attached) : List Node → Except Scalar.Fault (List Tree)
  | [] => .ok []
  | n :: rest => do
    let t ← image a n
    let more ← imageItems a rest
    return t :: more

def imageEntries (a : Attached) : List (Node × Node) → Except Scalar.Fault (List Tree)
  | [] => .ok []
  | (k, v) :: rest => do
    let key ← image a k
    let value ← image a v
    let more ← imageEntries a rest
    return .pair (some key) (some value) :: more

end

end Tree
end YamlServer
