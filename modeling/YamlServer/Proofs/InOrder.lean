/-!
# Things in a row

Tokens, events and nodes each cover a part of a text, from a start to a stop. `InOrder` says of a
list of such things that each one stops before the next one starts, and that all of them lie between
two bounds.

* `inOrder_cons`: the first one, and the others after it.
* `InOrder.append`: two rows that meet.
-/

namespace YamlServer

variable {α : Type}

/-- The things of a list lie between `lo` and `hi`, each stopping before the next one starts. -/
structure InOrder (extent : α → Nat × Nat) (lo hi : Nat) (xs : List α) : Prop where
  le : lo ≤ hi
  inside : ∀ x ∈ xs, lo ≤ (extent x).1 ∧ (extent x).1 ≤ (extent x).2 ∧ (extent x).2 ≤ hi
  ordered : xs.Pairwise fun x y => (extent x).2 ≤ (extent y).1

section

variable {extent : α → Nat × Nat} {lo hi : Nat} {x : α} {xs ys : List α}

@[simp]
theorem inOrder_nil : InOrder extent lo hi [] ↔ lo ≤ hi := by
  constructor
  · intro h
    exact h.le
  · intro h
    refine ⟨h, ?_, List.Pairwise.nil⟩
    intro x hx
    cases hx

@[simp]
theorem inOrder_cons :
    InOrder extent lo hi (x :: xs) ↔
      lo ≤ (extent x).1 ∧ (extent x).1 ≤ (extent x).2 ∧ InOrder extent (extent x).2 hi xs := by
  constructor
  · intro h
    have hx := h.inside x List.mem_cons_self
    have hafter := List.pairwise_cons.1 h.ordered
    refine ⟨hx.1, hx.2.1, hx.2.2, ?_, hafter.2⟩
    intro y hy
    have hy' := h.inside y (List.mem_cons_of_mem _ hy)
    exact ⟨hafter.1 y hy, hy'.2⟩
  · intro ⟨hlo, hx, hxs⟩
    have hhi := hxs.le
    refine ⟨by omega, ?_, List.pairwise_cons.2 ⟨?_, hxs.ordered⟩⟩
    · intro y hy
      rcases List.mem_cons.1 hy with rfl | hy
      · exact ⟨hlo, hx, hhi⟩
      · have hy' := hxs.inside y hy
        omega
    · intro y hy
      exact (hxs.inside y hy).1

namespace InOrder

theorem mono {lo' hi' : Nat} (h : InOrder extent lo hi xs) (hlo : lo' ≤ lo) (hhi : hi ≤ hi') :
    InOrder extent lo' hi' xs := by
  have hle := h.le
  refine ⟨by omega, ?_, h.ordered⟩
  intro x hx
  have hx' := h.inside x hx
  omega

theorem sublist (h : InOrder extent lo hi xs) (hsub : ys.Sublist xs) : InOrder extent lo hi ys :=
  ⟨h.le, fun y hy => h.inside y (hsub.subset hy), h.ordered.sublist hsub⟩

theorem append {mid : Nat} (h : InOrder extent lo mid xs) (h' : InOrder extent mid hi ys) :
    InOrder extent lo hi (xs ++ ys) := by
  have hle := h.le
  have hle' := h'.le
  refine ⟨by omega, ?_, List.pairwise_append.2 ⟨h.ordered, h'.ordered, ?_⟩⟩
  · intro x hx
    rcases List.mem_append.1 hx with hx | hx
    · have hx' := h.inside x hx
      omega
    · have hx' := h'.inside x hx
      omega
  · intro x hx y hy
    have hx' := h.inside x hx
    have hy' := h'.inside y hy
    omega

/-- Two things of a row are the same one, or one stops before the other one starts. -/
theorem eq_or_apart {y : α} (h : InOrder extent lo hi xs) (hx : x ∈ xs) (hy : y ∈ xs) :
    x = y ∨ (extent x).2 ≤ (extent y).1 ∨ (extent y).2 ≤ (extent x).1 := by
  induction xs generalizing lo with
  | nil => cases hx
  | cons z zs ih =>
    have hafter := List.pairwise_cons.1 h.ordered
    rcases List.mem_cons.1 hx with rfl | hx'
    · rcases List.mem_cons.1 hy with rfl | hy'
      · exact Or.inl rfl
      · exact Or.inr (Or.inl (hafter.1 y hy'))
    · rcases List.mem_cons.1 hy with rfl | hy'
      · exact Or.inr (Or.inr (hafter.1 x hx'))
      · exact ih (inOrder_cons.1 h).2.2 hx' hy'

/-- Whether things stand in order depends on their extents only. -/
theorem of_map_eq {β : Type} {extent' : β → Nat × Nat} {zs : List β}
    (h : InOrder extent lo hi xs) (heq : zs.map extent' = xs.map extent) :
    InOrder extent' lo hi zs := by
  refine ⟨h.le, ?_, ?_⟩
  · intro z hz
    have hmem : extent' z ∈ xs.map extent := heq ▸ List.mem_map_of_mem hz
    rcases List.mem_map.1 hmem with ⟨x, hx, hext⟩
    rw [← hext]
    exact h.inside x hx
  · have hordered : (xs.map extent).Pairwise fun a b => a.2 ≤ b.1 := List.pairwise_map.2 h.ordered
    rw [← heq] at hordered
    exact List.pairwise_map.1 hordered

/-- Sorted numbers from inside each thing of a row are sorted altogether. -/
theorem sorted_flatMap {f : α → List Nat} (h : InOrder extent lo hi xs)
    (hf : ∀ x ∈ xs, (f x).Pairwise (· ≤ ·) ∧ ∀ n ∈ f x, (extent x).1 ≤ n ∧ n ≤ (extent x).2) :
    (xs.flatMap f).Pairwise (· ≤ ·) ∧ ∀ n ∈ xs.flatMap f, lo ≤ n ∧ n ≤ hi := by
  induction xs generalizing lo with
  | nil =>
    refine ⟨List.Pairwise.nil, ?_⟩
    intro n hn
    cases hn
  | cons x xs ih =>
    rcases inOrder_cons.1 h with ⟨hlo, hx, hxs⟩
    rcases hf x List.mem_cons_self with ⟨hsorted, hinside⟩
    rcases ih hxs (fun y hy => hf y (List.mem_cons_of_mem _ hy)) with ⟨hrest, hafter⟩
    have hhi := hxs.le
    refine ⟨List.pairwise_append.2 ⟨hsorted, hrest, ?_⟩, ?_⟩
    · intro n hn m hm
      exact Nat.le_trans (hinside n hn).2 (hafter m hm).1
    · intro n hn
      rcases List.mem_append.1 hn with hn | hn
      · have hn' := hinside n hn
        omega
      · have hn' := hafter n hn
        omega

end InOrder

end

end YamlServer
