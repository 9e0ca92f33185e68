import YamlServer.Proofs.Tree.Scalars

/-!
# Composed nodes and the nodes of their tree

A tree has the nodes it was made from and a pair for each key and its value. Without the pairs its
walk is that of the composed node, and each node keeps its place, its tag and its comments.

* `Tree.infos_image`: the nodes of the tree are the composed ones, in order.
-/

namespace YamlServer
namespace Tree

open Yaml

/-- The places, tags and comments of the nodes of a tree, from the top; a pair has none. -/
def infos (t : Tree) : List Info :=
  t.walk.filterMap info?

theorem infos_eq (t : Tree) : t.infos = t.info?.toList ++ t.children.flatMap infos := by
  have hwalk : t.walk = [t] ++ t.children.flatMap walk := walk_eq t
  have hhead : [t].filterMap info? = t.info?.toList := by
    cases t <;> rfl
  rw [infos, hwalk, List.filterMap_append, hhead, List.filterMap_flatMap]
  rfl

/-- What the tree of a node has to say about the nodes it was made from. -/
def Matches (a : Attached) (n : Node) : Prop :=
  ∀ t, image a n = .ok t → t.infos = n.walk.map (infoOf a)

theorem infos_imageItems {a : Attached} {items : List Node} {ts : List Tree}
    (hmatches : ∀ n ∈ items, Matches a n) (h : imageItems a items = .ok ts) :
    ts.flatMap infos = (Node.walkItems items).map (infoOf a) := by
  induction items generalizing ts with
  | nil =>
    cases h
    rfl
  | cons n rest ih =>
    rcases Outcome.bind_eq_ok.1 h with ⟨t, ht, hrest⟩
    rcases Outcome.bind_eq_ok.1 hrest with ⟨more, hmore, hlast⟩
    cases hlast
    have hfirst := hmatches n List.mem_cons_self t ht
    have hlater := ih (fun m hm => hmatches m (List.mem_cons_of_mem _ hm)) hmore
    simp [Node.walkItems, hfirst, hlater]

theorem infos_imageEntries {a : Attached} {entries : List (Node × Node)} {ts : List Tree}
    (hmatches : ∀ e ∈ entries, Matches a e.1 ∧ Matches a e.2)
    (h : imageEntries a entries = .ok ts) :
    ts.flatMap infos = (Node.walkEntries entries).map (infoOf a) := by
  induction entries generalizing ts with
  | nil =>
    cases h
    rfl
  | cons e rest ih =>
    rcases Outcome.bind_eq_ok.1 h with ⟨key, hkey, hrest⟩
    rcases Outcome.bind_eq_ok.1 hrest with ⟨value, hvalue, hrest'⟩
    rcases Outcome.bind_eq_ok.1 hrest' with ⟨more, hmore, hlast⟩
    cases hlast
    rcases hmatches e List.mem_cons_self with ⟨hfirst, hsecond⟩
    have hlater := ih (fun e' he' => hmatches e' (List.mem_cons_of_mem _ he')) hmore
    -- The pair itself has no place.
    have hpair : (Tree.pair (some key) (some value)).infos = key.infos ++ value.infos := by
      rw [infos_eq]
      simp [info?, children]
    simp [Node.walkEntries, hpair, hfirst key hkey, hsecond value hvalue, hlater]

/-- Without its pairs, a tree has the nodes that it was made from, in order. -/
theorem infos_image (a : Attached) (n : Node) : Matches a n := by
  induction n using Node.induction_below with
  | scalar id span tag content style =>
    intro t ht
    rcases Outcome.bind_eq_ok.1 ht with ⟨value, -, hlast⟩
    cases hlast
    rfl
  | leaf id span anchor target =>
    intro t ht
    cases ht
    rfl
  | sequence id span tag items ih =>
    intro t ht
    rcases Outcome.bind_eq_ok.1 ht with ⟨ts, hts, hlast⟩
    cases hlast
    rw [infos_eq, Node.walk, List.map_cons, ← infos_imageItems ih hts]
    rfl
  | mapping id span tag entries ih =>
    intro t ht
    rcases Outcome.bind_eq_ok.1 ht with ⟨ts, hts, hlast⟩
    cases hlast
    rw [infos_eq, Node.walk, List.map_cons, ← infos_imageEntries ih hts]
    rfl

end Tree
end YamlServer
