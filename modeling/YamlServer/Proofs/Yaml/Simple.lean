import YamlServer.Proofs.Outcome
import YamlServer.Proofs.Yaml.Making

/-!
# Values without parts

Of the values that objects are made of, only collections have parts, and every collection is a cell.
So an item that is not a cell is a simple value: what stands in a map, a list or a pair is told from
a collection by being no cell.

* `Yaml.Objects.simple_ofChars`: the items of a text are simple.
-/

namespace YamlServer

/-- A value without parts. -/
def Value.IsSimple : Value → Prop
  | .list _ | .tuple _ | .map _ | .set _ => False
  | _ => True

namespace Yaml

open Outcome

/-- A cell, or a value without parts. -/
def Item.IsSimple : Item → Prop
  | .atom v => v.IsSimple
  | .cell _ => True

def Cell.parts : Cell → List Item
  | .list items => items
  | .map entries => entries.map (·.2)
  | .pairs entries => entries.flatMap fun e => [e.1, e.2]
  | .set _ => []

theorem isSimple_of_plain? {tag content : String} {v : Value}
    (h : Scalar.plain? tag content = some (.ok v)) : v.IsSimple := by
  simp only [Scalar.plain?] at h
  -- Null, a truth value, an integer, a float, a text, or another tag.
  split at h
  · cases h
    trivial
  · split at h
    · rcases map_eq_ok.1 (Option.some.inj h) with ⟨b, -, rfl⟩
      trivial
    · split at h
      · rcases map_eq_ok.1 (Option.some.inj h) with ⟨n, -, rfl⟩
        trivial
      · split at h
        · rcases map_eq_ok.1 (Option.some.inj h) with ⟨x, -, rfl⟩
          trivial
        · split at h
          · cases h
            trivial
          · cases h

theorem isSimple_of_timestampValue {content : String} {v : Value}
    (h : timestampValue content = .ok v) : v.IsSimple := by
  unfold timestampValue at h
  split at h
  · cases h
  · rcases map_eq_ok.1 h with ⟨m, -, rfl⟩
    trivial

theorem isSimple_of_atomOf? {rs : Records} {id : Nat} {v : Value}
    (h : atomOf? rs id = some (.ok v)) : v.IsSimple := by
  unfold atomOf? at h
  dsimp only at h
  split at h
  · rcases bind_eq_ok.1 (Option.some.inj h) with ⟨text, -, hvalue⟩
    split at hvalue
    · cases hvalue
      trivial
    · split at hvalue <;> cases hvalue
  · split at h
    · rcases bind_eq_ok.1 (Option.some.inj h) with ⟨text, -, hvalue⟩
      split at hvalue
      · exact isSimple_of_timestampValue hvalue
      · cases hvalue
    · split at h
      · rcases bind_eq_ok.1 (Option.some.inj h) with ⟨text, -, hvalue⟩
        split at hvalue
        · rename_i hplain
          cases hvalue
          exact isSimple_of_plain? hplain
        · cases hvalue
        · cases hvalue
          trivial
      · cases h

namespace Making

/-- All items that were made are cells or simple, also those in the filled collections. -/
structure Simple (m : Making) : Prop where
  made : ∀ e ∈ m.made, e.2.IsSimple
  cells : ∀ e ∈ m.cells, ∀ i ∈ e.2.parts, i.IsSimple

variable {m m' : Making} {id : Nat}

theorem Simple.item {i : Item} (h : m.Simple) (hrun : item id m = .ok (i, m')) :
    m'.Simple ∧ i.IsSimple := by
  unfold Making.item at hrun
  split at hrun
  · rename_i hlookup
    cases hrun
    rcases List.lookup_eq_some_iff.1 hlookup with ⟨before, rest, hmade, -⟩
    exact ⟨h, h.made (id, i) (by simp [hmade])⟩
  · split at hrun
    · rename_i hatom
      rcases bind_eq_ok.1 hrun with ⟨v, rfl, hlast⟩
      cases hlast
      have hv := isSimple_of_atomOf? hatom
      exact ⟨⟨List.forall_mem_cons.2 ⟨hv, h.made⟩, h.cells⟩, hv⟩
    · dsimp only at hrun
      split at hrun
      · cases hrun
        exact ⟨⟨List.forall_mem_cons.2 ⟨trivial, h.made⟩, h.cells⟩, trivial⟩
      · cases hrun

theorem Simple.items {parts : List Nat} {is : List Item} (h : m.Simple)
    (hrun : items parts m = .ok (is, m')) : m'.Simple ∧ ∀ i ∈ is, i.IsSimple := by
  induction parts generalizing m is with
  | nil =>
    cases hrun
    exact ⟨h, by simp⟩
  | cons p parts ih =>
    rcases bind_eq_ok.1 hrun with ⟨⟨i, m₁⟩, hitem, hrest⟩
    rcases bind_eq_ok.1 hrest with ⟨⟨more, m₂⟩, hmore, hlast⟩
    cases hlast
    rcases h.item hitem with ⟨h₁, hi⟩
    rcases ih h₁ hmore with ⟨h₂, his⟩
    exact ⟨h₂, List.forall_mem_cons.2 ⟨hi, his⟩⟩

theorem isSimple_putItem {key : Value} {i : Item} {es : List (Value × Item)} (hi : i.IsSimple)
    (hes : ∀ e ∈ es, e.2.IsSimple) : ∀ e ∈ putItem key i es, e.2.IsSimple := by
  induction es with
  | nil => exact List.forall_mem_singleton.2 hi
  | cons e rest ih =>
    rcases List.forall_mem_cons.1 hes with ⟨hfirst, hrest⟩
    rw [putItem]
    split
    · exact List.forall_mem_cons.2 ⟨hi, hrest⟩
    · exact List.forall_mem_cons.2 ⟨hfirst, ih hrest⟩

theorem Simple.mapEntries {pairs : List (Nat × Nat)} {acc es : List (Value × Item)} (h : m.Simple)
    (hacc : ∀ e ∈ acc, e.2.IsSimple) (hrun : mapEntries acc pairs m = .ok (es, m')) :
    m'.Simple ∧ ∀ e ∈ es, e.2.IsSimple := by
  induction pairs generalizing m acc with
  | nil =>
    cases hrun
    exact ⟨h, hacc⟩
  | cons p pairs ih =>
    rcases bind_eq_ok.1 hrun with ⟨⟨k, m₁⟩, hkey, hrest⟩
    rcases h.item hkey with ⟨h₁, -⟩
    cases k with
    | cell => cases hrest
    | atom k =>
      rcases bind_eq_ok.1 hrest with ⟨⟨v, m₂⟩, hvalue, hmore⟩
      rcases h₁.item hvalue with ⟨h₂, hv⟩
      exact ih h₂ (isSimple_putItem hv hacc) hmore

theorem Simple.mappingOf {es : List (Value × Item)} (h : m.Simple)
    (hrun : mappingOf id m = .ok (es, m')) : m'.Simple ∧ ∀ e ∈ es, e.2.IsSimple := by
  unfold Making.mappingOf at hrun
  split at hrun
  · rcases bind_eq_ok.1 hrun with ⟨rs, -, hentries⟩
    have hflat : Simple { m with records := rs } := ⟨h.made, h.cells⟩
    exact hflat.mapEntries (List.forall_mem_nil _) hentries
  · cases hrun

theorem Simple.pairsOf {itemProblem : String → DataProblem} {countProblem : Nat → DataProblem}
    {parts : List Nat} {es : List (Item × Item)} (h : m.Simple)
    (hrun : pairsOf itemProblem countProblem parts m = .ok (es, m')) :
    m'.Simple ∧ ∀ e ∈ es, e.1.IsSimple ∧ e.2.IsSimple := by
  induction parts generalizing m es with
  | nil =>
    cases hrun
    exact ⟨h, by simp⟩
  | cons p parts ih =>
    unfold Making.pairsOf at hrun
    split at hrun
    · rcases bind_eq_ok.1 hrun with ⟨⟨k, m₁⟩, hkey, hrest⟩
      rcases bind_eq_ok.1 hrest with ⟨⟨v, m₂⟩, hvalue, hrest⟩
      rcases bind_eq_ok.1 hrest with ⟨⟨more, m₃⟩, hmore, hlast⟩
      cases hlast
      rcases h.item hkey with ⟨h₁, hk⟩
      rcases h₁.item hvalue with ⟨h₂, hv⟩
      rcases ih h₂ hmore with ⟨h₃, hes⟩
      exact ⟨h₃, List.forall_mem_cons.2 ⟨⟨hk, hv⟩, hes⟩⟩
    · cases hrun
    · cases hrun

theorem isSimple_parts_pairs {es : List (Item × Item)}
    (h : ∀ e ∈ es, e.1.IsSimple ∧ e.2.IsSimple) : ∀ i ∈ (Cell.pairs es).parts, i.IsSimple := by
  intro i hi
  rcases List.mem_flatMap.1 hi with ⟨e, he, hi⟩
  rcases h e he with ⟨hfirst, hsecond⟩
  exact List.forall_mem_cons.2 ⟨hfirst, List.forall_mem_singleton.2 hsecond⟩ i hi

theorem Simple.content {c : Cell} (h : m.Simple) (hrun : content id m = .ok (c, m')) :
    m'.Simple ∧ ∀ i ∈ c.parts, i.IsSimple := by
  unfold Making.content at hrun
  dsimp only at hrun
  split at hrun
  · rcases bind_eq_ok.1 hrun with ⟨⟨es, m₁⟩, hmapping, hlast⟩
    cases hlast
    rcases h.mappingOf hmapping with ⟨h₁, hes⟩
    exact ⟨h₁, List.forall_mem_map.2 hes⟩
  · rcases bind_eq_ok.1 hrun with ⟨⟨es, m₁⟩, hmapping, hlast⟩
    cases hlast
    exact ⟨(h.mappingOf hmapping).1, by simp [Cell.parts]⟩
  · rcases bind_eq_ok.1 hrun with ⟨⟨es, m₁⟩, hpairs, hlast⟩
    cases hlast
    rcases h.pairsOf hpairs with ⟨h₁, hes⟩
    exact ⟨h₁, isSimple_parts_pairs hes⟩
  · cases hrun
  · rcases bind_eq_ok.1 hrun with ⟨⟨es, m₁⟩, hpairs, hlast⟩
    cases hlast
    rcases h.pairsOf hpairs with ⟨h₁, hes⟩
    exact ⟨h₁, isSimple_parts_pairs hes⟩
  · cases hrun
  · rcases bind_eq_ok.1 hrun with ⟨⟨is, m₁⟩, hitems, hlast⟩
    cases hlast
    exact h.items hitems
  · cases hrun

theorem Simple.fill {fuel : Nat} (h : m.Simple) (hrun : fill fuel m = .ok m') : m'.Simple := by
  induction fuel generalizing m with
  | zero =>
    cases hrun
    exact h
  | succ fuel ih =>
    unfold Making.fill at hrun
    split at hrun
    · cases hrun
      exact h
    · rename_i id rest _
      rcases bind_eq_ok.1 hrun with ⟨⟨c, m₁⟩, hcontent, hmore⟩
      have hwaiting : Simple { m with waiting := rest } := ⟨h.made, h.cells⟩
      rcases hwaiting.content hcontent with ⟨h₁, hc⟩
      have hfilled : Simple { m₁ with cells := m₁.cells ++ [(id, c)] } :=
        ⟨h₁.made, List.forall_mem_append.2 ⟨h₁.cells, List.forall_mem_singleton.2 hc⟩⟩
      exact ih hfilled hmore

end Making

namespace Objects

/-- The root and all parts of collections are cells or simple. -/
structure Simple (o : Objects) : Prop where
  root : o.root.IsSimple
  parts : ∀ id c, o.cell? id = some c → ∀ i ∈ c.parts, i.IsSimple

/-- The objects of a text are cells or simple. -/
theorem simple_ofChars {cs : List Char} {o : Objects} (h : ofChars cs = .ok o) : o.Simple := by
  unfold ofChars at h
  split at h
  · cases h
  · cases h
    exact ⟨trivial, by simp [cell?]⟩
  · rcases bind_eq_ok.1 h with ⟨⟨i, m⟩, hitem, hrest⟩
    rcases bind_eq_ok.1 hrest with ⟨m', hfill, hlast⟩
    cases hlast
    have hstart : ∀ rs, Making.Simple ⟨rs, [], [], []⟩ :=
      fun rs => ⟨List.forall_mem_nil _, List.forall_mem_nil _⟩
    rcases (hstart _).item hitem with ⟨hmade, hroot⟩
    refine ⟨hroot, ?_⟩
    intro id c hcell
    rcases List.lookup_eq_some_iff.1 hcell with ⟨before, after, hcells, -⟩
    refine (hmade.fill hfill).cells (id, c) ?_
    dsimp only at hcells
    simp [hcells]

end Objects
end Yaml
end YamlServer
