import Mathlib.Data.List.Chain
import Mathlib.Data.List.Perm.Basic
import YamlServer.Proofs.Tree.Place

/-!
# Walking a tree with a stack

The nodes of a tree can be listed without recursion, with a stack of those that are still to come.
On the way an index is filled, in which every child finds its parent. A node is known by its number,
so that equal trees at different places are different nodes.

* `Tree.walked_unstack`: what the walk lists and what the index holds.
-/

namespace YamlServer
namespace Tree

/-! ## The stack -/

@[simp]
theorem sizeList_reverse (ts : List Tree) : sizeList ts.reverse = sizeList ts := by
  induction ts with
  | nil => rfl
  | cons t ts ih =>
    rw [List.reverse_cons, sizeList_append, ih]
    simp only [sizeList]
    omega

/-- Work off a stack whose top is the end of the list: the node there is listed, and its children go
on the stack, the last one first. -/
def unstack (stack : List (Nat × Tree)) : List (Nat × Tree) :=
  match _h : stack.getLast? with
  | none => []
  | some n => n :: unstack (stack.dropLast ++ (numberedChildren n.1 n.2).reverse)
termination_by sizeList (stack.map (·.2))
decreasing_by
  -- The nodes below those on the stack become one fewer.
  obtain ⟨rest, rfl⟩ := List.getLast?_eq_some_iff.1 _h
  simp only [List.dropLast_concat, List.map_append, List.map_reverse, sizeList_append,
    sizeList_reverse, numberedChildren, map_snd_numberFrom, List.map_cons, List.map_nil, sizeList,
    size_eq n.2]
  omega

def numbered (id : Nat) (t : Tree) : List (Nat × Tree) :=
  (visitsFrom none id t).map fun v => (v.id, v.node)

theorem map_visitsFrom (parent : Option Nat) (id : Nat) (t : Tree) :
    (visitsFrom parent id t).map (fun v => (v.id, v.node)) =
      (id, t) :: (numberedChildren id t).flatMap fun c => numbered c.1 c.2 := by
  induction t using induction_children generalizing parent id with
  | step t ih =>
    -- The number of the parent is dropped, so below it may be another one.
    have hbelow : ∀ b ∈ branches id t,
        (visitsFrom (some id) b.id b.node).map (fun v => (v.id, v.node)) =
          numbered b.id b.node := by
      intro b hb
      have hchild := ih b.node (mem_children_of_branch hb)
      rw [numbered, hchild, hchild]
    rw [visitsFrom_eq, List.map_cons, List.map_flatMap, List.flatMap_def,
      List.map_congr_left hbelow, ← map_branches, List.flatMap_map, List.flatMap_def]

theorem numbered_eq (id : Nat) (t : Tree) :
    numbered id t = (id, t) :: (numberedChildren id t).flatMap fun c => numbered c.1 c.2 :=
  map_visitsFrom none id t

/-- A stack stands for what the recursion lists below each of its nodes, from the top on. -/
theorem unstack_eq (stack : List (Nat × Tree)) :
    unstack stack = stack.reverse.flatMap fun n => numbered n.1 n.2 := by
  fun_induction unstack stack with
  | case1 stack h => rw [List.getLast?_eq_none_iff.1 h]; rfl
  | case2 stack n h ih =>
    obtain ⟨rest, rfl⟩ := List.getLast?_eq_some_iff.1 h
    -- Read from the top, the stack has the children in their order before what was there.
    rw [ih]
    simp [numbered_eq n.1 n.2]

/-! ## The index -/

/-- The entries that are made along a row of nodes: each child with the number of its node. -/
def parentEntries (nodes : List (Nat × Tree)) : List (Nat × Nat) :=
  nodes.flatMap fun n => (numberedChildren n.1 n.2).map fun c => (c.1, n.1)

/-- The index that is filled along a row of nodes; an entry replaces an earlier one of its key. -/
def parentIndex (nodes : List (Nat × Tree)) : Std.HashMap Nat Nat :=
  Std.HashMap.ofList (parentEntries nodes)

/-- The keys of the entries are the numbers of the nodes below the top, in another order. -/
theorem perm_keys (id : Nat) (t : Tree) :
    (id :: (parentEntries (numbered id t)).map (·.1)).Perm ((numbered id t).map (·.1)) := by
  induction t using induction_children generalizing id with
  | step t ih =>
    rw [numbered_eq, parentEntries, List.flatMap_cons, List.flatMap_assoc, List.map_append,
      List.map_map, List.map_flatMap, List.map_cons, List.map_flatMap]
    -- A node enters all of its children before the first of them enters its own.
    refine ((List.map_append_flatMap_perm _ _ _).trans ?_).cons id
    exact List.Perm.flatMap_left _ fun c hc => ih c.2 (mem_of_mem_numberFrom hc) c.1

@[simp]
theorem map_fst_numbered (root : Tree) : (numbered 0 root).map (·.1) = List.range' 0 root.size := by
  rw [← map_id_visits, numbered, List.map_map]
  rfl

theorem nodup_parentEntries (root : Tree) :
    (parentEntries (numbered 0 root)).Pairwise fun e e' => (e.1 == e'.1) = false := by
  have hkeys := perm_keys 0 root
  rw [map_fst_numbered] at hkeys
  have hnodup := (List.nodup_cons.1 (hkeys.nodup_iff.2 (List.nodup_range' ..))).2
  exact (List.pairwise_map.1 hnodup).imp beq_false_of_ne

theorem size_parentIndex (root : Tree) :
    (parentIndex (numbered 0 root)).size + 1 = (numbered 0 root).length := by
  have hlength := (perm_keys 0 root).length_eq
  rw [List.length_cons, List.length_map, List.length_map] at hlength
  rw [parentIndex, Std.HashMap.size_ofList (nodup_parentEntries root), hlength]

/-! ## Nodes and their parents -/

section

variable {root : Tree}

/-- A node of a tree with its number: the root, or a child of a node. -/
inductive IsNode (root : Tree) : Nat × Tree → Prop where
  | root : IsNode root (0, root)
  | child {n c : Nat × Tree} : IsNode root n → c ∈ numberedChildren n.1 n.2 → IsNode root c

theorem mem_numberedChildren_iff {id : Nat} {t : Tree} {c : Nat × Tree} :
    c ∈ numberedChildren id t ↔ ∃ b ∈ branches id t, (b.id, b.node) = c := by
  rw [← map_branches, List.mem_map]

theorem isNode_iff {n : Nat × Tree} : IsNode root n ↔ ∃ p ∈ root.places, (p.id, p.node) = n := by
  constructor
  · intro h
    induction h with
    | root => exact ⟨_, root_place root, rfl⟩
    | child _ hc ih =>
      rcases ih with ⟨p, hp, rfl⟩
      rcases mem_numberedChildren_iff.1 hc with ⟨b, hb, rfl⟩
      exact ⟨_, place_below hp hb, rfl⟩
  · rintro ⟨p, hp, rfl⟩
    refine place_induction (motive := fun p => IsNode root (p.id, p.node)) .root ?_ hp
    intro l rest p _ _ _ hside ih
    exact ih.child (mem_numberedChildren_iff.2 ⟨_, hside, rfl⟩)

@[simp]
theorem mem_numbered_iff {n : Nat × Tree} : n ∈ numbered 0 root ↔ IsNode root n := by
  have hplaces : numbered 0 root = root.places.map fun p => (p.id, p.node) := by
    rw [numbered, ← visits, visits_eq_places, List.map_map]
    rfl
  rw [hplaces, List.mem_map, isNode_iff]

/-- A node finds the node whose child it is. -/
theorem parentOf?_eq_some_iff {p q : Place} (hp : p ∈ root.places) (hq : q ∈ root.places) :
    parentOf? root.visits p.id = some q.id ↔ (p.id, p.node) ∈ numberedChildren q.id q.node := by
  rw [mem_numberedChildren_iff]
  constructor
  · intro hparent
    rw [parentOf?_place hp, Place.parent?] at hparent
    rcases place_cases hp with rfl | ⟨l, rest, habove, hl, hside⟩
    · cases hparent
    · rw [habove] at hparent
      cases place_unique hl hq (Option.some.inj hparent)
      exact ⟨_, hside, rfl⟩
  · rintro ⟨b, hb, heq⟩
    have hid : b.id = p.id := congrArg Prod.fst heq
    rw [← hid]
    exact parentOf?_place (place_below hq hb)

theorem parentOf?_eq_none_iff {p : Place} (hp : p ∈ root.places) :
    parentOf? root.visits p.id = none ↔ (p.id, p.node) = (0, root) := by
  rw [parentOf?_place hp, Place.parent?]
  rcases place_cases hp with rfl | ⟨l, rest, habove, -, hside⟩
  · exact iff_of_true rfl rfl
  · have hlt : l.id < p.id := lt_of_mem_branches hside
    rw [habove]
    refine iff_of_false (Option.some_ne_none l.id) fun heq => ?_
    have hzero : p.id = 0 := congrArg Prod.fst heq
    omega

/-- The entries are the parents that the numbering gives. -/
theorem mem_parentEntries_iff {id parent : Nat} :
    (id, parent) ∈ parentEntries (numbered 0 root) ↔ parentOf? root.visits id = some parent := by
  constructor
  · intro he
    rcases List.mem_flatMap.1 he with ⟨n, hn, he⟩
    rcases List.mem_map.1 he with ⟨c, hc, heq⟩
    rcases isNode_iff.1 (mem_numbered_iff.1 hn) with ⟨q, hq, rfl⟩
    rcases mem_numberedChildren_iff.1 hc with ⟨b, hb, rfl⟩
    cases heq
    exact parentOf?_place (place_below hq hb)
  · intro hparent
    rcases Option.bind_eq_some_iff.1 hparent with ⟨v, hv, -⟩
    rcases exists_place (congrArg (Option.map Visit.node) hv) with ⟨p, hp, rfl, -⟩
    rw [parentOf?_place hp, Place.parent?] at hparent
    rcases place_cases hp with rfl | ⟨l, rest, habove, hl, hside⟩
    · cases hparent
    · rw [habove] at hparent
      cases hparent
      exact List.mem_flatMap.2 ⟨_, mem_numbered_iff.2 (isNode_iff.2 ⟨_, hl, rfl⟩),
        List.mem_map.2 ⟨_, mem_numberedChildren_iff.2 ⟨_, hside, rfl⟩, rfl⟩⟩

@[simp]
theorem getElem?_parentIndex (root : Tree) (id : Nat) :
    (parentIndex (numbered 0 root))[id]? = parentOf? root.visits id := by
  -- No key is entered twice, so that no entry is replaced.
  cases hparent : parentOf? root.visits id with
  | some p =>
    exact Std.HashMap.getElem?_ofList_of_mem (beq_self_eq_true id) (nodup_parentEntries root)
      (mem_parentEntries_iff.2 hparent)
  | none =>
    refine Std.HashMap.getElem?_ofList_of_contains_eq_false (Bool.eq_false_iff.2 fun hkey => ?_)
    rcases List.mem_map.1 (List.contains_iff_mem.1 hkey) with ⟨⟨i, p⟩, he, rfl⟩
    exact Option.some_ne_none p ((mem_parentEntries_iff.1 he).symm.trans hparent)

/-- From a place on, looking up parents goes along its chain, up to the root. -/
theorem path_place {p : Place} (hp : p ∈ root.places) :
    (p.id :: p.above.map (·.id)).IsChain (fun c n => parentOf? root.visits c = some n) ∧
      (p.id :: p.above.map (·.id)).getLast? = some 0 := by
  refine place_induction (motive := fun p =>
    (p.id :: p.above.map (·.id)).IsChain (fun c n => parentOf? root.visits c = some n) ∧
      (p.id :: p.above.map (·.id)).getLast? = some 0) ⟨.singleton _, rfl⟩ ?_ hp
  intro l rest p hp _ habove _ ih
  have hparent : parentOf? root.visits p.id = some l.id := by
    rw [parentOf?_place hp, Place.parent?, habove]
    rfl
  rw [habove]
  exact ⟨.cons_cons hparent ih.1, ih.2⟩

end

/-- What a walk lists of a tree and what an index of parents that is filled on the way holds. -/
structure Walked (root : Tree) (nodes : List (Nat × Tree)) (index : Std.HashMap Nat Nat) :
    Prop where
  /-- The order is that of the recursion: a pair before its key, the key before the value, and
  behind an alias nothing of what it stands for. -/
  order : nodes = root.visits.map fun v => (v.id, v.node)
  /-- Every node is listed, and nothing else. -/
  complete : ∀ n, n ∈ nodes ↔ IsNode root n
  /-- No node is listed twice. -/
  once : (nodes.map (·.1)).Nodup
  /-- The index finds what the numbering gives. -/
  lookup : ∀ id, index[id]? = parentOf? root.visits id
  /-- The parent of a node is the node whose child it is. -/
  parent_iff : ∀ c ∈ nodes, ∀ n ∈ nodes,
    index[c.1]? = some n.1 ↔ c ∈ numberedChildren n.1 n.2
  /-- Only the root has no parent. -/
  top_iff : ∀ n ∈ nodes, index[n.1]? = none ↔ n = (0, root)
  /-- There is one entry for every node but the root. -/
  size : index.size + 1 = nodes.length
  /-- The ancestors of a node are what looking up parents goes through until the root, and are
  listed before the node. -/
  path : ∀ n ∈ nodes,
    (n.1 :: ancestors root.visits n.1).IsChain (fun c p => index[c]? = some p) ∧
    (n.1 :: ancestors root.visits n.1).getLast? = some 0 ∧
    ∀ front back, nodes = front ++ n :: back →
      ∀ a ∈ ancestors root.visits n.1, a ∈ front.map (·.1)

/-- Walking a tree with a stack lists its nodes as the recursion does, each of them once, and the
index of parents that is filled on the way leads from every node to the root. -/
theorem walked_unstack (root : Tree) :
    Walked root (unstack [(0, root)]) (parentIndex (unstack [(0, root)])) := by
  have hstack : unstack [(0, root)] = numbered 0 root := by
    rw [unstack_eq]
    exact List.append_nil _
  have hplace : ∀ n ∈ numbered 0 root, ∃ p ∈ root.places, (p.id, p.node) = n :=
    fun n hn => isNode_iff.1 (mem_numbered_iff.1 hn)
  rw [hstack]
  refine ⟨rfl, fun n => mem_numbered_iff, map_fst_numbered root ▸ List.nodup_range' ..,
    getElem?_parentIndex root, ?_, ?_, size_parentIndex root, ?_⟩
  · intro c hc n hn
    rcases hplace c hc with ⟨p, hp, rfl⟩
    rcases hplace n hn with ⟨q, hq, rfl⟩
    rw [getElem?_parentIndex]
    exact parentOf?_eq_some_iff hp hq
  · intro n hn
    rcases hplace n hn with ⟨p, hp, rfl⟩
    rw [getElem?_parentIndex]
    exact parentOf?_eq_none_iff hp
  · intro n hn
    rcases hplace n hn with ⟨p, hp, rfl⟩
    simp only [getElem?_parentIndex, ancestors_place hp]
    refine ⟨(path_place hp).1, (path_place hp).2, ?_⟩
    intro front back hsplit a ha
    rcases List.mem_map.1 ha with ⟨l, hl, rfl⟩
    have hlt : l.id < p.id := lt_of_mem_above hp hl
    -- The numbers go up along the row, so a smaller one stands in front.
    have hids := map_fst_numbered root
    have hsorted : (List.range' 0 root.size).Pairwise (· < ·) := List.pairwise_lt_range'
    have hmem : l.id ∈ List.range' 0 root.size := by
      have hp' : p.id ∈ List.range' 0 root.size := hids ▸ List.mem_map_of_mem hn
      rw [List.mem_range'_1] at hp' ⊢
      omega
    rw [hsplit, List.map_append, List.map_cons] at hids
    rw [← hids] at hsorted hmem
    rcases List.mem_append.1 hmem with hfront | hback
    · exact hfront
    · have hbehind := List.pairwise_cons.1 (List.pairwise_append.1 hsorted).2.1
      rcases List.mem_cons.1 hback with heq | hback
      · exact absurd heq (Nat.ne_of_lt hlt)
      · exact absurd hlt (Nat.lt_asymm (hbehind.1 _ hback))

end Tree
end YamlServer
