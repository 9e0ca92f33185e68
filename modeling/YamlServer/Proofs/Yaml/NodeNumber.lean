import YamlServer.Proofs.InOrder
import YamlServer.Proofs.Yaml.Targets

/-!
# The numbers of composed nodes

A reader gives every node the next number, and a pair takes one in front of its key. So the numbers
grow along the walk of a document, and no two of its nodes share one.

* `Composed.nodup_ids`: the nodes of a document have numbers of their own.
-/

namespace YamlServer
namespace Yaml

def Node.slot (n : Node) : Nat × Nat :=
  (n.id, n.id + 1)

namespace NodeReader

/-- A node that takes the next number stands in front of those below it. -/
theorem counts_cons {n : Node} {nodes : List Node} {lo hi : Nat} (hid : n.id = lo)
    (h : InOrder Node.slot (lo + 1) hi nodes) : InOrder Node.slot lo hi (n :: nodes) := by
  subst hid
  exact inOrder_cons.2 ⟨Nat.le_refl _, Nat.le_succ _, h⟩

theorem counts_leaf {n : Node} {lo : Nat} (hid : n.id = lo) :
    InOrder Node.slot lo (lo + 1) [n] :=
  counts_cons hid (by simp)

/-- What is assembled takes its numbers in order. -/
theorem Assembles.counts {c after : NodeReader} {p : Piece} (h : Assembles c p after) :
    InOrder Node.slot c.next after.next p.walk := by
  induction h with
  | «alias» => exact counts_leaf rfl
  | scalar => exact counts_leaf rfl
  | sequence _ _ ih => exact counts_cons rfl ih
  | mapping _ _ ih => exact counts_cons rfl ih
  | noItem => exact inOrder_nil.2 (Nat.le_refl _)
  | item _ _ hitem hmore => exact hitem.append hmore
  | noEntry => exact inOrder_nil.2 (Nat.le_refl _)
  | entry _ _ _ hkey hvalue hmore =>
    -- The pair itself has taken a number that no node of the walk has.
    exact ((hkey.append hvalue).append hmore).mono (Nat.le_succ _) (Nat.le_refl _)

theorem counts_root {events : List Event} {n : Node} {after : NodeReader}
    (h : root events = .ok (n, after)) : InOrder Node.slot 0 after.next n.walk :=
  (assembles_root h).counts

end NodeReader

namespace Composed

/-- The root of a document was read from events of the stream. -/
theorem exists_root_of_mem {size : Nat} {halt : Option Halt} {fuel : Nat} {events : List Event}
    {c : Composed} {n : Node} (hc : c ∈ ofEventsFrom size halt fuel events)
    (hn : c.root = some n) :
    ∃ own after, own <:+ events ∧ NodeReader.root own = .ok (n, after) := by
  have hread : ReadFrom (· <:+ events) size c := by
    refine readFrom_of_mem (List.suffix_refl _) ?_ hc
    intro e rest n after stop more hown _ hroot hafter
    have hmore : more <:+ after.events := hafter ▸ List.suffix_cons stop more
    exact hmore.trans ((NodeReader.suffix_root hroot).trans ((List.suffix_cons e rest).trans hown))
  cases hread with
  | rootless => cases hn
  | rooted hown _ hroot _ =>
    cases hn
    exact ⟨_, _, (List.suffix_cons _ _).trans hown, hroot⟩

/-- The numbers of a document grow along its walk. -/
theorem pairwise_ids {size : Nat} {s : EventStream} {c : Composed} {n : Node}
    (hc : c ∈ ofEvents size s) (hn : c.root = some n) :
    n.walk.Pairwise fun m m' => m.id < m'.id := by
  rcases exists_root_of_mem hc hn with ⟨own, after, -, hroot⟩
  exact (NodeReader.counts_root hroot).ordered

/-- No two nodes of a document share a number. -/
theorem nodup_ids {size : Nat} {s : EventStream} {c : Composed} {n : Node}
    (hc : c ∈ ofEvents size s) (hn : c.root = some n) : (n.walk.map Node.id).Nodup := by
  refine List.pairwise_map.2 ((pairwise_ids hc hn).imp ?_)
  intro m m' hlt
  exact Nat.ne_of_lt hlt

end Composed
end Yaml
end YamlServer
