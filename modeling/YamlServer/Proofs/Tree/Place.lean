import YamlServer.Proofs.Stack
import YamlServer.Tree.Basic

/-!
# Places of a tree

A place is a node of a tree together with everything around it: its number and the chain of nodes
that enclose it, nearest first, each with the side on which the chain goes on. The list of visits
keeps only the number of a node's parent; the chain has to be looked up there step by step.

* `Tree.places`: the nodes of a tree from the top, each with its chain.
* `Tree.visits_eq_places`: the visits are the places with their chains forgotten.
* `Tree.ancestors_place`: looking parents up one after another gives the chain back.
-/

namespace YamlServer
namespace Tree

/-- How a node hangs below another one: as the key or the value of a pair, or as an entry of a map
or a sequence. -/
inductive Side where
  | key
  | value
  | entry
deriving Repr, DecidableEq

/-- An enclosing node, its number, and the side on which it is left. -/
structure Link where
  id : Nat
  node : Tree
  side : Side
deriving Repr

structure Place where
  id : Nat
  above : List Link
  node : Tree
deriving Repr

mutual

def placesFrom (above : List Link) (id : Nat) : Tree → List Place
  | .pair key value =>
    ⟨id, above, .pair key value⟩ ::
      (placesOption (⟨id, .pair key value, .key⟩ :: above) (id + 1) key ++
        placesOption (⟨id, .pair key value, .value⟩ :: above) (id + 1 + sizeOption key) value)
  | .map i entries =>
    ⟨id, above, .map i entries⟩ ::
      placesList (⟨id, .map i entries, .entry⟩ :: above) (id + 1) entries
  | .sequence i items =>
    ⟨id, above, .sequence i items⟩ ::
      placesList (⟨id, .sequence i items, .entry⟩ :: above) (id + 1) items
  | t => [⟨id, above, t⟩]

def placesOption (above : List Link) (id : Nat) : Option Tree → List Place
  | none => []
  | some t => placesFrom above id t

def placesList (above : List Link) (id : Nat) : List Tree → List Place
  | [] => []
  | t :: rest => placesFrom above id t ++ placesList above (id + size t) rest

end

def places (t : Tree) : List Place :=
  placesFrom [] 0 t

def placesOf : Option Tree → List Place
  | none => []
  | some t => t.places

namespace Place

def parent? (p : Place) : Option Nat :=
  p.above.head?.map (·.id)

def visit (p : Place) : Visit :=
  ⟨p.id, p.parent?, p.node⟩

end Place

/-! ## Branches

The five kinds of nodes are alike as far as numbering goes: a node is followed by its branches, each
of which starts where the one before it ends. -/

/-- A node right below another one, with its number and its side. -/
structure Branch where
  side : Side
  id : Nat
  node : Tree
deriving Repr

def branches (id : Nat) : Tree → List Branch
  | .pair key value =>
    key.toList.map (fun t => ⟨.key, id + 1, t⟩) ++
      value.toList.map fun t => ⟨.value, id + 1 + sizeOption key, t⟩
  | t => (t.numberedChildren id).map fun c => ⟨.entry, c.1, c.2⟩

def target? : Tree → Option Nat
  | .alias _ _ target => target
  | _ => none

/-- Induction on a tree by the nodes right below it. -/
theorem induction_children {motive : Tree → Prop}
    (step : ∀ t : Tree, (∀ c ∈ t.children, motive c) → motive t) (t : Tree) : motive t := by
  refine step t ?_
  intro c hc
  exact induction_children step c
termination_by sizeOf t
decreasing_by
  cases t with
  | scalar i value raw style =>
    simp [children] at hc
  | pair key value =>
    simp only [children, List.mem_append, Option.mem_toList] at hc
    rcases hc with rfl | rfl
    · simp
      omega
    · simp
      omega
  | map i entries =>
    have hlt : sizeOf c < sizeOf entries := List.sizeOf_lt_of_mem hc
    simp
    omega
  | sequence i items =>
    have hlt : sizeOf c < sizeOf items := List.sizeOf_lt_of_mem hc
    simp
    omega
  | «alias» i anchor target =>
    simp [children] at hc

@[simp]
theorem sizeList_append (as bs : List Tree) :
    sizeList (as ++ bs) = sizeList as + sizeList bs := by
  induction as with
  | nil => simp [sizeList]
  | cons a as ih =>
    simp only [List.cons_append, sizeList, ih]
    omega

@[simp]
theorem sizeList_toList (o : Option Tree) : sizeList o.toList = sizeOption o := by
  cases o with
  | none => rfl
  | some t => simp [sizeList, sizeOption]

theorem size_eq (t : Tree) : t.size = 1 + sizeList t.children := by
  cases t with
  | scalar i value raw style => simp [size, children, sizeList]
  | pair key value =>
    simp only [size, children, sizeList_append, sizeList_toList]
    omega
  | map i entries => simp [size, children]
  | sequence i items => simp [size, children]
  | «alias» i anchor target => simp [size, children, sizeList]

theorem size_pos (t : Tree) : 0 < t.size := by
  rw [size_eq]
  omega

theorem size_le_sizeList {t : Tree} {ts : List Tree} (h : t ∈ ts) : t.size ≤ sizeList ts := by
  induction ts with
  | nil => cases h
  | cons a ts ih =>
    simp only [sizeList]
    rcases List.mem_cons.1 h with rfl | h
    · omega
    · have := ih h
      omega

theorem size_lt_of_mem_children {t c : Tree} (h : c ∈ t.children) : c.size < t.size := by
  have := size_le_sizeList h
  rw [size_eq t]
  omega

@[simp]
theorem numberFrom_append (id : Nat) (as bs : List Tree) :
    numberFrom id (as ++ bs) = numberFrom id as ++ numberFrom (id + sizeList as) bs := by
  induction as generalizing id with
  | nil => simp [numberFrom, sizeList]
  | cons a as ih => simp [numberFrom, sizeList, ih, Nat.add_assoc]

@[simp]
theorem map_snd_numberFrom (id : Nat) (ts : List Tree) : (numberFrom id ts).map (·.2) = ts := by
  induction ts generalizing id with
  | nil => rfl
  | cons t ts ih => simp [numberFrom, ih]

theorem mem_of_mem_numberFrom {id i : Nat} {c : Tree} {ts : List Tree}
    (h : (i, c) ∈ numberFrom id ts) : c ∈ ts := by
  have hmem : c ∈ (numberFrom id ts).map (·.2) := List.mem_map_of_mem h
  rwa [map_snd_numberFrom] at hmem

@[simp]
theorem numberFrom_toList (id : Nat) (o : Option Tree) :
    numberFrom id o.toList = o.toList.map fun t => (id, t) := by
  cases o with
  | none => rfl
  | some t => simp [numberFrom]

@[simp]
theorem map_branches (id : Nat) (t : Tree) :
    (branches id t).map (fun b => (b.id, b.node)) = t.numberedChildren id := by
  cases t with
  | pair key value =>
    simp [branches, numberedChildren, children, Function.comp_def]
  | _ => simp [branches, Function.comp_def]

theorem mem_children_of_branch {id : Nat} {t : Tree} {b : Branch} (h : b ∈ branches id t) :
    b.node ∈ t.children := by
  have hmem : (b.id, b.node) ∈ (branches id t).map fun b => (b.id, b.node) :=
    List.mem_map_of_mem h
  rw [map_branches] at hmem
  exact mem_of_mem_numberFrom hmem

theorem placesList_eq (above : List Link) (id : Nat) (ts : List Tree) :
    placesList above id ts = (numberFrom id ts).flatMap fun c => placesFrom above c.1 c.2 := by
  induction ts generalizing id with
  | nil => simp [placesList, numberFrom]
  | cons t ts ih => simp [placesList, numberFrom, ih]

/-- The places of a tree: the top, and then the places of each branch. -/
theorem placesFrom_eq (above : List Link) (id : Nat) (t : Tree) :
    placesFrom above id t =
      ⟨id, above, t⟩ ::
        (branches id t).flatMap fun b => placesFrom (⟨id, t, b.side⟩ :: above) b.id b.node := by
  cases t with
  | pair key value =>
    cases key <;> cases value <;> simp [placesFrom, placesOption, branches]
  | map i entries =>
    simp [placesFrom, placesList_eq, branches, numberedChildren, children, List.flatMap_map]
  | sequence i items =>
    simp [placesFrom, placesList_eq, branches, numberedChildren, children, List.flatMap_map]
  | scalar i value raw style =>
    simp [placesFrom, branches, numberedChildren, children, numberFrom]
  | «alias» i anchor target =>
    simp [placesFrom, branches, numberedChildren, children, numberFrom]

theorem top_mem_placesFrom (above : List Link) (id : Nat) (t : Tree) :
    ⟨id, above, t⟩ ∈ placesFrom above id t := by
  rw [placesFrom_eq]
  exact List.mem_cons_self

theorem root_place (root : Tree) : (⟨0, [], root⟩ : Place) ∈ root.places :=
  top_mem_placesFrom [] 0 root

/-- A place of a branch is a place of the tree. -/
theorem mem_placesFrom_of_branch {above : List Link} {id : Nat} {t : Tree} {b : Branch} {p : Place}
    (hb : b ∈ branches id t) (hp : p ∈ placesFrom (⟨id, t, b.side⟩ :: above) b.id b.node) :
    p ∈ placesFrom above id t := by
  rw [placesFrom_eq]
  exact List.mem_cons_of_mem _ (List.mem_flatMap.2 ⟨b, hb, hp⟩)

theorem visitsList_eq (parent : Option Nat) (id : Nat) (ts : List Tree) :
    visitsList parent id ts = (numberFrom id ts).flatMap fun c => visitsFrom parent c.1 c.2 := by
  induction ts generalizing id with
  | nil => simp [visitsList, numberFrom]
  | cons t ts ih => simp [visitsList, numberFrom, ih]

/-- The visits of a tree: the top, and then the visits of each branch. -/
theorem visitsFrom_eq (parent : Option Nat) (id : Nat) (t : Tree) :
    visitsFrom parent id t =
      ⟨id, parent, t⟩ :: (branches id t).flatMap fun b => visitsFrom (some id) b.id b.node := by
  cases t with
  | pair key value =>
    cases key <;> cases value <;> simp [visitsFrom, visitsOption, branches]
  | map i entries =>
    simp [visitsFrom, visitsList_eq, branches, numberedChildren, children, List.flatMap_map]
  | sequence i items =>
    simp [visitsFrom, visitsList_eq, branches, numberedChildren, children, List.flatMap_map]
  | scalar i value raw style =>
    simp [visitsFrom, branches, numberedChildren, children, numberFrom]
  | «alias» i anchor target =>
    simp [visitsFrom, branches, numberedChildren, children, numberFrom]

/-! ## Numbers -/

/-- The numbers of the places of siblings, if those of each sibling are known. -/
theorem map_id_siblings (above : Branch → List Link) (id : Nat) (bs : List Branch) (ts : List Tree)
    (hbs : bs.map (fun b => (b.id, b.node)) = numberFrom id ts)
    (hids : ∀ b ∈ bs,
      (placesFrom (above b) b.id b.node).map (·.id) = List.range' b.id b.node.size) :
    (bs.flatMap fun b => placesFrom (above b) b.id b.node).map (·.id) =
      List.range' id (sizeList ts) := by
  -- On the siblings: the numbers of one end where those of the next begin.
  induction ts generalizing id bs with
  | nil =>
    have hnil : bs = [] := by simpa [numberFrom] using hbs
    simp [hnil, sizeList]
  | cons t ts ih =>
    cases bs with
    | nil => simp [numberFrom] at hbs
    | cons b bs =>
      simp only [List.map_cons, numberFrom, List.cons.injEq, Prod.mk.injEq] at hbs
      rcases hbs with ⟨⟨rfl, rfl⟩, hbs⟩
      have hhead := hids b (by simp)
      have htail := ih (b.id + b.node.size) bs hbs (fun b' hb' => hids b' (by simp [hb']))
      simp only [List.flatMap_cons, List.map_append, hhead, htail, sizeList]
      exact List.range'_append_1 ..

@[simp]
theorem map_id_placesFrom (above : List Link) (id : Nat) (t : Tree) :
    (placesFrom above id t).map (·.id) = List.range' id t.size := by
  induction t using induction_children generalizing above id with
  | step t ih =>
    have hbelow := map_id_siblings (fun b => ⟨id, t, b.side⟩ :: above) (id + 1)
      (branches id t) t.children (map_branches id t)
      (fun b hb => ih b.node (mem_children_of_branch hb) _ _)
    rw [placesFrom_eq, size_eq, List.map_cons, hbelow, Nat.add_comm 1, List.range'_succ]

@[simp]
theorem length_placesFrom (above : List Link) (id : Nat) (t : Tree) :
    (placesFrom above id t).length = t.size := by
  rw [← List.length_map (·.id), map_id_placesFrom, List.length_range']

/-- The visits of a tree are its places with their chains forgotten. -/
theorem visitsFrom_eq_places (above : List Link) (id : Nat) (t : Tree) :
    visitsFrom (above.head?.map (·.id)) id t = (placesFrom above id t).map Place.visit := by
  induction t using induction_children generalizing above id with
  | step t ih =>
    rw [visitsFrom_eq, placesFrom_eq, List.map_cons, List.map_flatMap]
    have hbelow : ∀ b ∈ branches id t,
        visitsFrom (some id) b.id b.node =
          (placesFrom (⟨id, t, b.side⟩ :: above) b.id b.node).map Place.visit := by
      intro b hb
      exact ih b.node (mem_children_of_branch hb) (⟨id, t, b.side⟩ :: above) b.id
    rw [List.flatMap_def, List.map_congr_left hbelow, ← List.flatMap_def]
    rfl

theorem visits_eq_places (t : Tree) : t.visits = t.places.map Place.visit :=
  visitsFrom_eq_places [] 0 t

@[simp]
theorem map_id_visits (t : Tree) : t.visits.map (·.id) = List.range' 0 t.size := by
  rw [← map_id_placesFrom [] 0 t, visits_eq_places, List.map_map]
  rfl

theorem visitsOf_eq_places (root : Option Tree) :
    visitsOf root = (placesOf root).map Place.visit := by
  cases root with
  | none => rfl
  | some t => exact visits_eq_places t

/-- The nodes of a tree do not depend on how they are numbered. -/
theorem map_node_visitsFrom (parent : Option Nat) (id : Nat) (t : Tree) :
    (visitsFrom parent id t).map (·.node) = t :: t.children.flatMap walk := by
  induction t using induction_children generalizing parent id with
  | step t ih =>
    have hbelow : ∀ b ∈ branches id t,
        (visitsFrom (some id) b.id b.node).map (·.node) = b.node.walk := by
      intro b hb
      have hchild := ih b.node (mem_children_of_branch hb)
      rw [hchild, walk, visits, hchild]
    have hnodes : (branches id t).map (·.node) = t.children := by
      have hpairs := congrArg (List.map Prod.snd) (map_branches id t)
      rwa [List.map_map, numberedChildren, map_snd_numberFrom] at hpairs
    rw [visitsFrom_eq, List.map_cons, List.map_flatMap, List.flatMap_def,
      List.map_congr_left hbelow, ← hnodes, List.flatMap_map, List.flatMap_def]

/-- The walk of a tree: the root, then the walks of its children. -/
theorem walk_eq (t : Tree) : t.walk = t :: t.children.flatMap walk :=
  map_node_visitsFrom none 0 t

variable {t : Tree} {p : Place}

theorem id_of_getElem?_places {t : Tree} {i : Nat} {p : Place} (h : t.places[i]? = some p) :
    p.id = i := by
  -- The numbers are counted up from 0, so the `i`-th of them is `i`.
  have hid : (t.places.map (·.id))[i]? = some p.id := by simp [h]
  have hlt : i < t.size := by
    have hlen := (List.getElem?_eq_some_iff.1 h).1
    rwa [places, length_placesFrom] at hlen
  rw [places, map_id_placesFrom, List.getElem?_range' hlt] at hid
  have := Option.some.inj hid
  omega

/-- A place stands at the position of its number. -/
theorem getElem?_places (hp : p ∈ t.places) : t.places[p.id]? = some p := by
  obtain ⟨i, hi⟩ := List.mem_iff_getElem?.1 hp
  rw [id_of_getElem?_places hi]
  exact hi

theorem getElem?_visits (hp : p ∈ t.places) : t.visits[p.id]? = some p.visit := by
  rw [visits_eq_places, List.getElem?_map, getElem?_places hp]
  rfl

theorem visit_mem (hp : p ∈ t.places) : p.visit ∈ t.visits :=
  List.mem_of_getElem? (getElem?_visits hp)

theorem place_unique {t : Tree} {p q : Place} (hp : p ∈ t.places) (hq : q ∈ t.places)
    (hid : p.id = q.id) : p = q := by
  have hplace := getElem?_places hp
  rw [hid, getElem?_places hq] at hplace
  exact (Option.some.inj hplace).symm

theorem nodeAt?_place (hp : p ∈ t.places) : nodeAt? t.visits p.id = some p.node := by
  simp [nodeAt?, getElem?_visits hp, Place.visit]

/-- What stands at a number is a place of that number. -/
theorem exists_place {t u : Tree} {i : Nat} (h : nodeAt? t.visits i = some u) :
    ∃ p ∈ t.places, p.id = i ∧ p.node = u := by
  rw [nodeAt?, visits_eq_places, List.getElem?_map] at h
  rcases Option.map_eq_some_iff.1 h with ⟨w, hw, rfl⟩
  rcases Option.map_eq_some_iff.1 hw with ⟨p, hp, rfl⟩
  exact ⟨p, List.mem_of_getElem? hp, id_of_getElem?_places hp, rfl⟩

theorem parentOf?_place (hp : p ∈ t.places) : parentOf? t.visits p.id = p.parent? := by
  simp [parentOf?, getElem?_visits hp, Place.visit]

/-! ## Chains -/

/-- The nearest link of a chain is a place itself, and the node hangs there on the link's side. -/
theorem place_cases {above : List Link} {id : Nat} (hp : p ∈ placesFrom above id t) :
    p = ⟨id, above, t⟩ ∨
      ∃ l rest, p.above = l :: rest ∧ ⟨l.id, rest, l.node⟩ ∈ placesFrom above id t ∧
        ⟨l.side, p.id, p.node⟩ ∈ branches l.id l.node := by
  induction t using induction_children generalizing above id with
  | step t ih =>
    rw [placesFrom_eq, List.mem_cons] at hp
    rcases hp with rfl | hp
    · exact Or.inl rfl
    · obtain ⟨b, hb, hpb⟩ := List.mem_flatMap.1 hp
      refine Or.inr ?_
      -- The place is the top of the branch, or has its nearest link inside the branch.
      rcases ih b.node (mem_children_of_branch hb) hpb with rfl | ⟨l, rest, habove, hl, hside⟩
      · exact ⟨⟨id, t, b.side⟩, above, rfl, top_mem_placesFrom above id t, hb⟩
      · exact ⟨l, rest, habove, mem_placesFrom_of_branch hb hl, hside⟩

/-- The chain around a tree is the outer part of the chain of each of its places. -/
theorem suffix_above {above : List Link} {id : Nat} (hp : p ∈ placesFrom above id t) :
    above <:+ p.above := by
  induction t using induction_children generalizing above id with
  | step t ih =>
    rw [placesFrom_eq, List.mem_cons] at hp
    rcases hp with rfl | hp
    · exact List.suffix_refl _
    · obtain ⟨b, hb, hpb⟩ := List.mem_flatMap.1 hp
      have hlonger := ih b.node (mem_children_of_branch hb) hpb
      exact (List.suffix_cons _ above).trans hlonger

theorem le_of_mem_numberFrom {start : Nat} {ts : List Tree} {c : Nat × Tree}
    (h : c ∈ numberFrom start ts) : start ≤ c.1 := by
  induction ts generalizing start with
  | nil => cases h
  | cons a ts ih =>
    rcases List.mem_cons.1 h with rfl | h
    · exact Nat.le_refl _
    · exact Nat.le_trans (Nat.le_add_right _ _) (ih h)

theorem lt_of_mem_branches {id : Nat} {t : Tree} {b : Branch} (h : b ∈ branches id t) :
    id < b.id := by
  have hmem : (b.id, b.node) ∈ (branches id t).map fun b => (b.id, b.node) :=
    List.mem_map_of_mem h
  rw [map_branches] at hmem
  exact le_of_mem_numberFrom hmem

theorem place_below {above : List Link} {id : Nat} (hp : p ∈ placesFrom above id t)
    {b : Branch} (hb : b ∈ branches p.id p.node) :
    ⟨b.id, ⟨p.id, p.node, b.side⟩ :: p.above, b.node⟩ ∈ placesFrom above id t := by
  induction t using induction_children generalizing above id with
  | step t ih =>
    rw [placesFrom_eq, List.mem_cons] at hp
    rcases hp with rfl | hp
    · exact mem_placesFrom_of_branch hb (top_mem_placesFrom _ b.id b.node)
    · rcases List.mem_flatMap.1 hp with ⟨b', hb', hp⟩
      exact mem_placesFrom_of_branch hb' (ih b'.node (mem_children_of_branch hb') hp)

/-- What is proved of a place from its parent holds at every place: the induction down the chain. -/
theorem place_induction {t : Tree} {motive : Place → Prop} (root : motive ⟨0, [], t⟩)
    (step : ∀ (l : Link) (rest : List Link) (p : Place), p ∈ t.places →
      ⟨l.id, rest, l.node⟩ ∈ t.places → p.above = l :: rest →
      ⟨l.side, p.id, p.node⟩ ∈ branches l.id l.node → motive ⟨l.id, rest, l.node⟩ → motive p)
    {p : Place} (hp : p ∈ t.places) : motive p := by
  -- On the length of the chain: the parent has all of it but the nearest link.
  generalize hn : p.above.length = n
  induction n generalizing p with
  | zero =>
    rcases place_cases hp with rfl | ⟨l, rest, habove, -, -⟩
    · exact root
    · simp [habove] at hn
  | succ n ih =>
    rcases place_cases hp with rfl | ⟨l, rest, habove, hl, hside⟩
    · exact root
    · refine step l rest p hp hl habove hside (ih hl ?_)
      simpa [habove] using hn

/-- Every link of a chain is a place, with the rest of the chain around it. -/
theorem place_of_mem_above (hp : p ∈ t.places) {l : Link} (hl : l ∈ p.above) :
    ∃ q ∈ t.places, q.id = l.id ∧ q.node = l.node := by
  revert hl
  refine place_induction
    (motive := fun p => l ∈ p.above → ∃ q ∈ t.places, q.id = l.id ∧ q.node = l.node) ?_ ?_ hp
  · intro hl
    cases hl
  · intro l' rest p _ hparent habove _ ih hl
    rw [habove] at hl
    rcases List.mem_cons.1 hl with rfl | hl
    · exact ⟨_, hparent, rfl, rfl⟩
    · exact ih hl

theorem lt_of_mem_above (hp : p ∈ t.places) {l : Link} (hl : l ∈ p.above) : l.id < p.id := by
  revert hl
  refine place_induction (motive := fun p => l ∈ p.above → l.id < p.id) ?_ ?_ hp
  · intro hl
    cases hl
  · intro l' rest p _ _ habove hside ih hl
    have hlt : l'.id < p.id := lt_of_mem_branches hside
    rw [habove] at hl
    rcases List.mem_cons.1 hl with rfl | hl
    · exact hlt
    · exact Nat.lt_trans (ih hl) hlt

theorem length_above_le (hp : p ∈ t.places) : p.above.length ≤ p.id := by
  refine place_induction (motive := fun p => p.above.length ≤ p.id) (Nat.le_refl 0) ?_ hp
  intro l rest p _ _ habove hside ih
  have hlt : l.id < p.id := lt_of_mem_branches hside
  rw [habove]
  exact Nat.lt_of_le_of_lt ih hlt

theorem ancestorsFrom_place (hp : p ∈ t.places) {fuel : Nat} (hfuel : p.above.length < fuel) :
    ancestorsFrom t.visits fuel p.id = p.above.map (·.id) := by
  revert fuel
  refine place_induction (motive := fun p => ∀ {fuel : Nat}, p.above.length < fuel →
    ancestorsFrom t.visits fuel p.id = p.above.map (·.id)) ?_ ?_ hp
  · intro fuel hfuel
    obtain ⟨fuel, rfl⟩ := Nat.exists_eq_add_of_lt hfuel
    have hparent : parentOf? t.visits 0 = none := parentOf?_place (root_place t)
    simp [ancestorsFrom, hparent]
  · intro l rest p hp _ habove _ ih fuel hfuel
    rw [habove, List.length_cons] at hfuel
    obtain ⟨fuel, rfl⟩ : ∃ n, fuel = n + 1 := ⟨fuel - 1, by omega⟩
    have hparent : parentOf? t.visits p.id = some l.id := by
      simp [parentOf?_place hp, Place.parent?, habove]
    have hrest : ancestorsFrom t.visits fuel l.id = rest.map (·.id) := ih (by simpa using hfuel)
    simp [ancestorsFrom, hparent, habove, hrest]

/-- Looking up parents from a node on gives the numbers of its chain. -/
theorem ancestors_place (hp : p ∈ t.places) : ancestors t.visits p.id = p.above.map (·.id) := by
  -- A chain is no longer than the number at its end, so the number of visits bounds the lookups.
  refine ancestorsFrom_place hp ?_
  have hle := length_above_le hp
  have hlt : p.id < t.visits.length := (List.getElem?_eq_some_iff.1 (getElem?_visits hp)).1
  omega

/-! ## Going down -/

namespace Place

def parts (p : Place) : List Place :=
  (branches p.id p.node).map fun b => ⟨b.id, ⟨p.id, p.node, b.side⟩ :: p.above, b.node⟩

theorem placesFrom_eq_parts (p : Place) : placesFrom p.above p.id p.node =
    p :: p.parts.flatMap fun q => placesFrom q.above q.id q.node := by
  rw [placesFrom_eq, parts, List.flatMap_map]

def branching : Branching Place where
  parts := parts
  weight p := p.node.size
  lt p := by
    have htotal : ∀ ps : List Place,
        ps.foldr (fun q n => q.node.size + n) 0 = sizeList (ps.map (·.node)) := by
      intro ps
      induction ps with
      | nil => rfl
      | cons q ps ih => rw [List.foldr_cons, ih, List.map_cons, sizeList]
    have hnodes : p.parts.map (·.node) = p.node.children := by
      rw [← map_snd_numberFrom (p.id + 1) p.node.children, ← numberedChildren, ← map_branches,
        parts, List.map_map, List.map_map]
      rfl
    rw [htotal, hnodes, size_eq p.node]
    omega

end Place

end Tree
end YamlServer
