import YamlServer.Proofs.Abreast
import YamlServer.Proofs.Outcome
import YamlServer.Proofs.Tree.Image
import YamlServer.Proofs.Yaml.Assembly

/-!
# Numbers of nodes and places of a tree

The number that a composed node was given is its place in the walk of its tree, where each pair of a
key and a value takes a place of its own. The reader counts as the tree does: a node comes before
the nodes below it, and a pair before its key.

* `Yaml.NodeReader.numbered_root`: a composed document is numbered from 0.
* `Tree.nodeAt?_of_mem_walk`: the number of a node leads to its tree.
* `Tree.forall₂_imageItems`, `Tree.forall₂_imageEntries`: the numbers of the nodes right below a
  node.
-/

namespace YamlServer

namespace Yaml
namespace Node

mutual

def count : Node → Nat
  | .sequence _ _ _ items => 1 + countItems items
  | .mapping _ _ _ entries => 1 + countEntries entries
  | _ => 1

def countItems : List Node → Nat
  | [] => 0
  | n :: rest => count n + countItems rest

def countEntries : List (Node × Node) → Nat
  | [] => 0
  | (k, v) :: rest => 1 + count k + count v + countEntries rest

end

mutual

/-- The node and the nodes below it have the numbers from `lo` on, in the order of the walk. -/
def Numbered (lo : Nat) : Node → Prop
  | .sequence id _ _ items => id = lo ∧ NumberedItems (lo + 1) items
  | .mapping id _ _ entries => id = lo ∧ NumberedEntries (lo + 1) entries
  | n => n.id = lo

def NumberedItems (lo : Nat) : List Node → Prop
  | [] => True
  | n :: rest => Numbered lo n ∧ NumberedItems (lo + count n) rest

/-- A pair takes a number before its key. -/
def NumberedEntries (lo : Nat) : List (Node × Node) → Prop
  | [] => True
  | (k, v) :: rest =>
    Numbered (lo + 1) k ∧ Numbered (lo + 1 + count k) v ∧
      NumberedEntries (lo + 1 + count k + count v) rest

end

theorem Numbered.id_eq {lo : Nat} {n : Node} (h : n.Numbered lo) : n.id = lo := by
  cases n with
  | scalar => simpa [Numbered] using h
  | sequence => exact h.1
  | mapping => exact h.1
  | «alias» => simpa [Numbered] using h

end Node

namespace Piece

def count : Piece → Nat
  | .node n => n.count
  | .items ns _ => Node.countItems ns
  | .entries es _ => Node.countEntries es

def Numbered (lo : Nat) : Piece → Prop
  | .node n => n.Numbered lo
  | .items ns _ => Node.NumberedItems lo ns
  | .entries es _ => Node.NumberedEntries lo es

end Piece

namespace NodeReader

/-- What is assembled is numbered from the next number of the reader on. -/
theorem Assembles.numbered {c after : NodeReader} {p : Piece} (h : Assembles c p after) :
    p.Numbered c.next ∧ after.next = c.next + p.count := by
  induction h with
  | «alias» | scalar => exact ⟨rfl, rfl⟩
  | sequence _ _ ih | mapping _ _ ih =>
    rcases ih with ⟨hnumbered, hnext⟩
    exact ⟨⟨rfl, hnumbered⟩, hnext.trans (Nat.add_assoc _ _ _)⟩
  | noItem | noEntry => exact ⟨trivial, rfl⟩
  | item _ _ hitem hmore =>
    rcases hitem with ⟨hfirst, hbetween⟩
    rcases hmore with ⟨hothers, hnext⟩
    rw [hbetween] at hothers hnext
    exact ⟨⟨hfirst, hothers⟩, hnext.trans (Nat.add_assoc _ _ _)⟩
  | entry _ _ _ hkey hvalue hmore =>
    rcases hkey with ⟨hfirst, hbetween⟩
    rcases hvalue with ⟨hsecond, hbetween'⟩
    rcases hmore with ⟨hothers, hnext⟩
    rw [hbetween] at hsecond hbetween'
    rw [hbetween'] at hothers hnext
    refine ⟨⟨hfirst, hsecond, hothers⟩, ?_⟩
    simp only [hnext, Piece.count, Node.countEntries]
    omega

theorem numbered_root {events : List Event} {n : Node} {after : NodeReader}
    (h : root events = .ok (n, after)) : n.Numbered 0 :=
  (assembles_root h).numbered.1

end NodeReader
end Yaml

namespace Tree

open Yaml Outcome

/-! ## The nodes right below a node -/

/-- The tree of a node, and the number from which both are counted. -/
def Numbers (a : Attached) (n : Node) (numbered : Nat × Tree) : Prop :=
  n.Numbered numbered.1 ∧ image a n = .ok numbered.2

/-- The tree of a key and a value, and its number. -/
def NumbersPair (a : Attached) (e : Node × Node) (numbered : Nat × Tree) : Prop :=
  ∃ key value, numbered.2 = .pair (some key) (some value) ∧
    Numbers a e.1 (numbered.1 + 1, key) ∧ Numbers a e.2 (numbered.1 + 1 + key.size, value)

theorem size_imageItems {a : Attached} {items : List Node} {ts : List Tree}
    (hsize : ∀ n ∈ items, ∀ t, image a n = .ok t → t.size = n.count)
    (h : imageItems a items = .ok ts) : sizeList ts = Node.countItems items := by
  induction items generalizing ts with
  | nil =>
    cases h
    rfl
  | cons n rest ih =>
    rcases bind_eq_ok.1 h with ⟨t, ht, hrest⟩
    rcases bind_eq_ok.1 hrest with ⟨more, hmore, hlast⟩
    cases hlast
    rw [sizeList, Node.countItems, hsize n List.mem_cons_self t ht,
      ih (fun m hm => hsize m (List.mem_cons_of_mem _ hm)) hmore]

theorem size_imageEntries {a : Attached} {entries : List (Node × Node)} {ts : List Tree}
    (hsize : ∀ e ∈ entries, (∀ t, image a e.1 = .ok t → t.size = e.1.count) ∧
      ∀ t, image a e.2 = .ok t → t.size = e.2.count)
    (h : imageEntries a entries = .ok ts) : sizeList ts = Node.countEntries entries := by
  induction entries generalizing ts with
  | nil =>
    cases h
    rfl
  | cons e rest ih =>
    rcases bind_eq_ok.1 h with ⟨key, hkey, hrest⟩
    rcases bind_eq_ok.1 hrest with ⟨value, hvalue, hrest'⟩
    rcases bind_eq_ok.1 hrest' with ⟨more, hmore, hlast⟩
    cases hlast
    rcases hsize e List.mem_cons_self with ⟨hfirst, hsecond⟩
    rw [sizeList, size, sizeOption, sizeOption, Node.countEntries, hfirst key hkey,
      hsecond value hvalue, ih (fun e' he' => hsize e' (List.mem_cons_of_mem _ he')) hmore]

/-- A tree has as many nodes as its composed node takes numbers. -/
theorem size_image {a : Attached} (n : Node) : ∀ t, image a n = .ok t → t.size = n.count := by
  induction n using Node.induction_below with
  | scalar id span tag content style =>
    intro t ht
    rcases bind_eq_ok.1 ht with ⟨value, -, hlast⟩
    cases hlast
    rfl
  | leaf id span anchor target =>
    intro t ht
    cases ht
    rfl
  | sequence id span tag items ih =>
    intro t ht
    rcases bind_eq_ok.1 ht with ⟨ts, hts, hlast⟩
    cases hlast
    rw [size, Node.count, size_imageItems ih hts]
  | mapping id span tag entries ih =>
    intro t ht
    rcases bind_eq_ok.1 ht with ⟨ts, hts, hlast⟩
    cases hlast
    rw [size, Node.count, size_imageEntries ih hts]

theorem forall₂_imageItems {a : Attached} {lo : Nat} {items : List Node} {ts : List Tree}
    (hnumbered : Node.NumberedItems lo items) (h : imageItems a items = .ok ts) :
    List.Forall₂ (Numbers a) items (numberFrom lo ts) := by
  induction items generalizing lo ts with
  | nil =>
    cases h
    exact .nil
  | cons n rest ih =>
    rcases bind_eq_ok.1 h with ⟨t, ht, hrest⟩
    rcases bind_eq_ok.1 hrest with ⟨more, hmore, hlast⟩
    cases hlast
    refine .cons ⟨hnumbered.1, ht⟩ ?_
    rw [size_image n t ht]
    exact ih hnumbered.2 hmore

theorem forall₂_imageEntries {a : Attached} {lo : Nat} {entries : List (Node × Node)}
    {ts : List Tree} (hnumbered : Node.NumberedEntries lo entries)
    (h : imageEntries a entries = .ok ts) :
    List.Forall₂ (NumbersPair a) entries (numberFrom lo ts) := by
  induction entries generalizing lo ts with
  | nil =>
    cases h
    exact .nil
  | cons e rest ih =>
    rcases bind_eq_ok.1 h with ⟨key, hkey, hrest⟩
    rcases bind_eq_ok.1 hrest with ⟨value, hvalue, hrest'⟩
    rcases bind_eq_ok.1 hrest' with ⟨more, hmore, hlast⟩
    cases hlast
    rcases hnumbered with ⟨hfirst, hsecond, hothers⟩
    have hsize : (Tree.pair (some key) (some value)).size = 1 + e.1.count + e.2.count := by
      rw [size, sizeOption, sizeOption, size_image e.1 key hkey, size_image e.2 value hvalue]
    refine .cons ⟨key, value, rfl, ⟨hfirst, hkey⟩, ?_, hvalue⟩ ?_
    · rw [size_image e.1 key hkey]
      exact hsecond
    · rw [hsize, ← Nat.add_assoc, ← Nat.add_assoc]
      exact ih hothers hmore

/-! ## All nodes -/

/-- A node has its place in a list of places: that of its number, with its tree. -/
def Placed (a : Attached) (places : List Place) (n : Node) : Prop :=
  n.Numbered n.id ∧ ∃ p ∈ places, p.id = n.id ∧ image a n = .ok p.node

theorem Placed.top {a : Attached} {n : Node} {above : List Link} {numbered : Nat × Tree}
    (h : Numbers a n numbered) : Placed a (placesFrom above numbered.1 numbered.2) n := by
  rcases h with ⟨hnumbered, ht⟩
  exact ⟨hnumbered.id_eq.symm ▸ hnumbered, ⟨_, above, _⟩, top_mem_placesFrom ..,
    hnumbered.id_eq.symm, ht⟩

/-- What has its place in a branch has it in the tree. -/
theorem Placed.of_branch {a : Attached} {above : List Link} {id : Nat} {t : Tree} {b : Branch}
    {n : Node} (hb : b ∈ branches id t)
    (h : Placed a (placesFrom (⟨id, t, b.side⟩ :: above) b.id b.node) n) :
    Placed a (placesFrom above id t) n := by
  rcases h with ⟨hnumbered, p, hp, hplace⟩
  exact ⟨hnumbered, p, mem_placesFrom_of_branch hb hp, hplace⟩

/-- Every node of a walk has its place in the tree. -/
theorem placed {a : Attached} (n : Node) : ∀ above numbered, Numbers a n numbered →
    ∀ m ∈ n.walk, Placed a (placesFrom above numbered.1 numbered.2) m := by
  induction n using Node.induction_below with
  | scalar id span tag content style =>
    intro above numbered h m hm
    rcases List.mem_singleton.1 hm with rfl
    exact Placed.top h
  | leaf id span anchor target =>
    intro above numbered h m hm
    rcases List.mem_singleton.1 hm with rfl
    exact Placed.top h
  | sequence id span tag items ih =>
    rintro above ⟨lo, t⟩ h m hm
    rcases List.mem_cons.1 hm with rfl | hm
    · exact Placed.top h
    · rcases bind_eq_ok.1 h.2 with ⟨ts, hts, hlast⟩
      cases hlast
      rw [Node.walkItems_eq] at hm
      rcases List.mem_flatMap.1 hm with ⟨item, hitem, hm⟩
      rcases Abreast.exists_of_mem (forall₂_imageItems h.1.2 hts) hitem with
        ⟨child, hchild, hnumbers⟩
      have hbranch : ∀ info, ⟨.entry, child.1, child.2⟩ ∈ branches lo (.sequence info ts) :=
        fun _ => List.mem_map.2 ⟨child, hchild, rfl⟩
      exact Placed.of_branch (hbranch _) (ih item hitem _ child hnumbers m hm)
  | mapping id span tag entries ih =>
    rintro above ⟨lo, t⟩ h m hm
    rcases List.mem_cons.1 hm with rfl | hm
    · exact Placed.top h
    · rcases bind_eq_ok.1 h.2 with ⟨ts, hts, hlast⟩
      cases hlast
      rw [Node.walkEntries_eq] at hm
      rcases List.mem_flatMap.1 hm with ⟨entry, hentry, hm⟩
      rcases Abreast.exists_of_mem (forall₂_imageEntries h.1.2 hts) hentry with
        ⟨⟨i, pair⟩, hchild, key, value, rfl, hkey, hvalue⟩
      have hbranch : ∀ info, ⟨.entry, i, .pair (some key) (some value)⟩ ∈
          branches lo (.map info ts) := fun _ => List.mem_map.2 ⟨_, hchild, rfl⟩
      refine Placed.of_branch (hbranch _) ?_
      rcases List.mem_append.1 hm with hm | hm
      · have hside : ⟨.key, i + 1, key⟩ ∈ branches i (.pair (some key) (some value)) := by
          simp [branches]
        exact Placed.of_branch hside ((ih entry hentry).1 _ _ hkey m hm)
      · have hside : ⟨.value, i + 1 + key.size, value⟩ ∈
            branches i (.pair (some key) (some value)) := by
          simp [branches, sizeOption]
        exact Placed.of_branch hside ((ih entry hentry).2 _ _ hvalue m hm)

/-- The number of a node of a composed document leads to its tree. -/
theorem nodeAt?_of_mem_walk {a : Attached} {root n : Node} {t : Tree} (hroot : root.Numbered 0)
    (ht : image a root = .ok t) (hn : n ∈ root.walk) :
    n.Numbered n.id ∧ n.id < t.visits.length ∧
      ∃ t', nodeAt? t.visits n.id = some t' ∧ image a n = .ok t' := by
  rcases placed root [] (0, t) ⟨hroot, ht⟩ n hn with ⟨hnumbered, p, hp, hid, htree⟩
  have hplace := nodeAt?_place hp
  rw [hid] at hplace
  refine ⟨hnumbered, ?_, p.node, hplace, htree⟩
  by_contra hlt
  simp [nodeAt?, List.getElem?_eq_none (Nat.le_of_not_lt hlt)] at hplace

end Tree
end YamlServer
