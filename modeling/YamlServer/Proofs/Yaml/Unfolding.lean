import Mathlib.Data.Fintype.Card
import Mathlib.Data.List.Forall2
import Mathlib.Data.Set.Finite.List
import Mathlib.Logic.Relation
import Mathlib.Order.WellFounded
import YamlServer.Proofs.Yaml.Simple

/-!
# Objects as trees

A collection that is named by aliases is one object with several places. As a tree it is copied to
each of them. Objects that hold themselves have no such tree, and all others have one: as there are
finitely many collections, going from a collection to its parts comes to an end unless it comes
back.

* `Objects.Unfolds`: a value is the tree of an item.
* `Objects.Acyclic.exists_unfolds`: the root of acyclic objects has a tree.
-/

namespace YamlServer
namespace Yaml

def Item.isAbove (n : Nat) : Item → Bool
  | .atom _ => true
  | .cell i => decide (n < i)

namespace Objects

/-! ## Collections inside each other -/

/-- The collection numbered `i` has the one numbered `j` for a part. -/
def Holds (o : Objects) (i j : Nat) : Prop :=
  ∃ c, o.cell? i = some c ∧ .cell j ∈ c.parts

/-- The collections that the root is made of. -/
def Reached (o : Objects) (i : Nat) : Prop :=
  ∃ top, o.root = .cell top ∧ Relation.ReflTransGen o.Holds top i

/-- No collection of the root holds itself, at any depth. -/
def Acyclic (o : Objects) : Prop :=
  ∀ i, o.Reached i → ¬ Relation.TransGen o.Holds i i

/-- From the collection on, going to parts comes to an end. -/
abbrev Founded (o : Objects) (i : Nat) : Prop :=
  Acc (fun inner outer => o.Holds outer inner) i

variable {o : Objects}

theorem Reached.trans {i j : Nat} (h : o.Reached i) (hij : Relation.TransGen o.Holds i j) :
    o.Reached j := by
  rcases h with ⟨top, hroot, htop⟩
  exact ⟨top, hroot, htop.trans hij.to_reflTransGen⟩

/-- A founded collection does not hold itself. -/
theorem Founded.irrefl {i : Nat} (h : o.Founded i) : ¬ Relation.TransGen o.Holds i i := by
  induction h with
  | intro i _ ih =>
    intro hcycle
    rcases Relation.TransGen.head'_iff.1 hcycle with ⟨j, hij, hji⟩
    exact ih j hij (Relation.TransGen.tail' hji hij)

theorem Founded.of_transGen {i j : Nat} (h : o.Founded i) (hij : Relation.TransGen o.Holds i j) :
    o.Founded j := by
  induction hij with
  | single hstep => exact h.inv hstep
  | tail _ hstep ih => exact ih.inv hstep

/-- A number without a collection has no parts. -/
theorem founded_of_cell?_eq_none {i : Nat} (h : o.cell? i = none) : o.Founded i := by
  refine ⟨_, ?_⟩
  rintro j ⟨c, hcell, -⟩
  rw [h] at hcell
  cases hcell

theorem mem_of_cell? {i : Nat} {c : Cell} (h : o.cell? i = some c) : i ∈ o.cells.map (·.1) := by
  rcases List.lookup_eq_some_iff.1 h with ⟨before, after, hcells, -⟩
  rw [hcells]
  simp

/-- Below the root of acyclic objects every collection is founded. -/
theorem Acyclic.founded (h : o.Acyclic) {i : Nat} (hi : o.Reached i) : o.Founded i := by
  -- Among the finitely many collections, being inside is transitive and irreflexive.
  let Inside (a b : {n // n ∈ o.cells.map (·.1)}) : Prop :=
    o.Reached b ∧ Relation.TransGen o.Holds b a
  have : Finite {n // n ∈ o.cells.map (·.1)} := (o.cells.map (·.1)).finite_toSet.to_subtype
  have : IsTrans _ Inside := ⟨fun a b c hab hbc => ⟨hbc.1, hbc.2.trans hab.2⟩⟩
  have : Std.Irrefl Inside := ⟨fun a ha => h a ha.1 ha.2⟩
  have hwf : WellFounded Inside := Finite.wellFounded_of_trans_of_irrefl Inside
  have hfounded : ∀ a : {n // n ∈ o.cells.map (·.1)}, o.Reached a → o.Founded a := by
    intro a
    induction a using hwf.induction with
    | h a ih =>
      intro ha
      refine ⟨_, ?_⟩
      intro j hj
      cases hcell : o.cell? j with
      | none => exact founded_of_cell?_eq_none hcell
      | some c =>
        have hinside : Relation.TransGen o.Holds a j := .single hj
        exact ih ⟨j, mem_of_cell? hcell⟩ ⟨ha, hinside⟩ (ha.trans hinside)
  cases hcell : o.cell? i with
  | none => exact founded_of_cell?_eq_none hcell
  | some c => exact hfounded ⟨i, mem_of_cell? hcell⟩ hi

/-- Objects are acyclic if collections have parts of higher numbers only. -/
theorem acyclic_of_ascending (h : ∀ e ∈ o.cells, ∀ i ∈ e.2.parts, i.isAbove e.1 = true) :
    o.Acyclic := by
  have hstep : ∀ i j, o.Holds i j → i < j := by
    rintro i j ⟨c, hcell, hj⟩
    rcases List.lookup_eq_some_iff.1 hcell with ⟨before, after, hcells, -⟩
    have hmem : (i, c) ∈ o.cells := by
      rw [hcells]
      simp
    exact of_decide_eq_true (h (i, c) hmem _ hj)
  intro i _ hcycle
  have hup : Relation.TransGen (· < ·) i i := Relation.TransGen.mono hstep i i hcycle
  rw [Relation.transGen_eq_self] at hup
  exact Nat.lt_irrefl i hup

/-! ## Trees -/

/-- A value is the tree of an item: every collection is written out wherever it stands. A number
without a collection stands for null. -/
inductive Unfolds (o : Objects) : Item → Value → Prop where
  | atom {v : Value} : v.IsSimple → Unfolds o (.atom v) v
  | list {id : Nat} {items : List Item} {vs : List Value} : o.cell? id = some (.list items) →
      List.Forall₂ (Unfolds o) items vs → Unfolds o (.cell id) (.list vs)
  | map {id : Nat} {entries : List (Value × Item)} {vs : List Value} :
      o.cell? id = some (.map entries) → List.Forall₂ (Unfolds o) (entries.map (·.2)) vs →
      Unfolds o (.cell id) (.map ((entries.map (·.1)).zip vs))
  | pairs {id : Nat} {entries : List (Item × Item)} {ks vs : List Value} :
      o.cell? id = some (.pairs entries) → List.Forall₂ (Unfolds o) (entries.map (·.1)) ks →
      List.Forall₂ (Unfolds o) (entries.map (·.2)) vs →
      Unfolds o (.cell id) (.list ((ks.zip vs).map fun e => .tuple [e.1, e.2]))
  | set {id : Nat} {members : List Value} : o.cell? id = some (.set members) →
      Unfolds o (.cell id) (.set members)
  | missing {id : Nat} : o.cell? id = none → Unfolds o (.cell id) .null

theorem exists_unfolds_items {items : List Item} (h : ∀ i ∈ items, ∃ v, o.Unfolds i v) :
    ∃ vs, List.Forall₂ o.Unfolds items vs := by
  induction items with
  | nil => exact ⟨[], .nil⟩
  | cons i rest ih =>
    rcases h i List.mem_cons_self with ⟨v, hv⟩
    rcases ih fun j hj => h j (List.mem_cons_of_mem _ hj) with ⟨vs, hvs⟩
    exact ⟨v :: vs, .cons hv hvs⟩

theorem Founded.exists_unfolds {id : Nat} (h : o.Founded id) (hsimple : o.Simple) :
    ∃ v, o.Unfolds (.cell id) v := by
  induction h with
  | intro id _ ih =>
    -- All parts have trees, whatever kind of collection they are parts of.
    have hparts : ∀ c, o.cell? id = some c → ∀ i ∈ c.parts, ∃ v, o.Unfolds i v := by
      intro c hcell i hi
      cases i with
      | atom v => exact ⟨v, .atom (hsimple.parts id c hcell _ hi)⟩
      | cell j => exact ih j ⟨c, hcell, hi⟩
    cases hcell : o.cell? id with
    | none => exact ⟨_, .missing hcell⟩
    | some c =>
      have hown := hparts c hcell
      cases c with
      | list items =>
        rcases exists_unfolds_items hown with ⟨vs, hvs⟩
        exact ⟨_, .list hcell hvs⟩
      | map entries =>
        rcases exists_unfolds_items hown with ⟨vs, hvs⟩
        exact ⟨_, .map hcell hvs⟩
      | pairs entries =>
        have hside : ∀ side : Item × Item → Item, (∀ e, side e ∈ [e.1, e.2]) →
            ∃ vs, List.Forall₂ o.Unfolds (entries.map side) vs := by
          intro side hside
          refine exists_unfolds_items fun i hi => hown i ?_
          rcases List.mem_map.1 hi with ⟨e, he, rfl⟩
          exact List.mem_flatMap.2 ⟨e, he, hside e⟩
        rcases hside (·.1) (by simp) with ⟨ks, hks⟩
        rcases hside (·.2) (by simp) with ⟨vs, hvs⟩
        exact ⟨_, .pairs hcell hks hvs⟩
      | set members => exact ⟨_, .set hcell⟩

theorem Acyclic.exists_unfolds (h : o.Acyclic) (hsimple : o.Simple) : ∃ v, o.Unfolds o.root v := by
  have hown := hsimple.root
  cases hroot : o.root with
  | atom v =>
    rw [hroot] at hown
    exact ⟨v, .atom hown⟩
  | cell top => exact (h.founded ⟨top, hroot, .refl⟩).exists_unfolds hsimple

/-! ## Maps -/

/-- An entry and its tree. -/
def UnfoldsEntry (o : Objects) (e : Value × Item) (f : Value × Value) : Prop :=
  e.1 = f.1 ∧ o.Unfolds e.2 f.2

theorem forall₂_zip {entries : List (Value × Item)} {vs : List Value}
    (h : List.Forall₂ o.Unfolds (entries.map (·.2)) vs) :
    List.Forall₂ o.UnfoldsEntry entries ((entries.map (·.1)).zip vs) := by
  induction entries generalizing vs with
  | nil =>
    cases h
    exact .nil
  | cons e rest ih =>
    cases h with
    | cons hv hvs => exact .cons ⟨rfl, hv⟩ (ih hvs)

/-- The tree of a map is a map, entry by entry. -/
theorem Unfolds.exists_map {i : Item} {v : Value} {entries : List (Value × Item)}
    (h : o.Unfolds i v) (hentries : o.entries? i = some entries) :
    ∃ es, v = .map es ∧ List.Forall₂ o.UnfoldsEntry entries es := by
  cases h with
  | atom _ => cases hentries
  | map hcell hvs =>
    rw [entries?, hcell] at hentries
    cases hentries
    exact ⟨_, rfl, forall₂_zip hvs⟩
  | list hcell _ | pairs hcell _ _ | set hcell | missing hcell =>
    rw [entries?, hcell] at hentries
    cases hentries

theorem Unfolds.ne_map {i : Item} {v : Value} (h : o.Unfolds i v) (hentries : o.entries? i = none)
    (es : List (Value × Value)) : v ≠ .map es := by
  rintro rfl
  cases h with
  | atom hsimple => exact hsimple
  | map hcell _ =>
    rw [entries?, hcell] at hentries
    cases hentries

end Objects
end Yaml
end YamlServer
