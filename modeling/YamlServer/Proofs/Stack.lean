import Mathlib.Data.List.Basic

/-!
# Loops with a stack

A tree can be gone through without recursion, with a stack of the nodes that are still to come. What
is on top is visited, and the visit says whether its parts are to be visited as well. Such a loop
does what a recursion over the parts does: at any time the stack stands for the rest of it.
-/

namespace YamlServer

/-- Things with parts, which together are lighter than the whole. -/
structure Branching (α : Type) where
  parts : α → List α
  weight : α → Nat
  lt : ∀ a, (parts a).foldr (fun c n => weight c + n) 0 < weight a

namespace Branching

variable {α σ : Type} {m : Type → Type} [Monad m] (b : Branching α)

def total (xs : List α) : Nat :=
  xs.foldr (fun a n => b.weight a + n) 0

theorem total_append (xs ys : List α) : b.total (xs ++ ys) = b.total xs + b.total ys := by
  induction xs with
  | nil => simp [total]
  | cons x xs ih =>
    simp only [total, List.cons_append, List.foldr_cons] at ih ⊢
    omega

theorem total_reverse (xs : List α) : b.total xs.reverse = b.total xs := by
  induction xs with
  | nil => rfl
  | cons x xs ih =>
    rw [List.reverse_cons, total_append, ih]
    simp only [total, List.foldr_cons, List.foldr_nil]
    omega

/-- The stack after `a` has left it: if `a` is to be entered, its parts are on top, the first one
last. -/
def replace (rest : List α) (a : α) (enter : Bool) : List α :=
  rest ++ if enter then (b.parts a).reverse else []

theorem total_replace_lt (rest : List α) (a : α) (enter : Bool) :
    b.total (b.replace rest a enter) < b.total (rest ++ [a]) := by
  have hlt : b.total (b.parts a) < b.weight a := b.lt a
  have ha : b.total [a] = b.weight a := by simp [total]
  rw [replace, total_append, total_append, ha]
  cases enter with
  | false =>
    have hnil : b.total ([] : List α) = 0 := rfl
    simp only [Bool.false_eq_true, if_false, hnil]
    omega
  | true =>
    rw [if_pos rfl, total_reverse]
    omega

/-- Work off a stack whose top is the end of the list. What is there is visited, and the visit says
whether it is to be entered. -/
def drain (visit : σ → α → m (σ × Bool)) (s : σ) (stack : List α) : m σ :=
  match _h : stack.getLast? with
  | none => pure s
  | some a => visit s a >>= fun r => drain visit r.1 (b.replace stack.dropLast a r.2)
termination_by b.total stack
decreasing_by
  obtain ⟨rest, rfl⟩ := List.getLast?_eq_some_iff.1 _h
  rw [List.dropLast_concat]
  exact b.total_replace_lt rest a r.2

/-- The loop is a recursion that takes a step at a thing and then, if it is to be entered, goes down
to its parts in order. It need be one only on the things that the loop can come to. -/
theorem drain_eq [LawfulMonad m] {visit : σ → α → m (σ × Bool)} {step down : σ → α → m σ}
    {enter : α → Bool} {P : α → Prop}
    (hvisit : ∀ s a, P a → visit s a = (fun s' => (s', enter a)) <$> step s a)
    (hdown : ∀ s a, P a → down s a =
      step s a >>= fun s' => if enter a then (b.parts a).foldlM down s' else pure s')
    (hparts : ∀ a, P a → enter a = true → ∀ c ∈ b.parts a, P c) (s : σ) (stack : List α)
    (hstack : ∀ a ∈ stack, P a) :
    b.drain visit s stack = stack.reverse.foldlM down s := by
  fun_induction drain b visit s stack with
  | case1 s stack h =>
    rw [List.getLast?_eq_none_iff.1 h]
    rfl
  | case2 s stack a h ih =>
    obtain ⟨rest, rfl⟩ := List.getLast?_eq_some_iff.1 h
    have ha : P a := hstack a (by simp)
    have hrest : ∀ c ∈ rest, P c := fun c hc => hstack c (List.mem_append_left _ hc)
    rw [List.dropLast_concat] at ih ⊢
    rw [List.reverse_concat, List.foldlM_cons, hvisit s a ha, hdown s a ha, bind_map_left,
      bind_assoc]
    refine bind_congr fun s' => ?_
    -- Read from the top, the stack has the parts in their order before what was there.
    cases henter : enter a with
    | false =>
      have hnext := ih (s', false) (by simpa [replace] using hrest)
      simpa [replace] using hnext
    | true =>
      have hnext := ih (s', true) fun c hc => (List.mem_append.1 hc).elim (hrest c) fun hc =>
        hparts a ha henter c (by simpa using hc)
      simpa [replace, List.foldlM_append] using hnext

theorem drain_eq_foldl {step down : σ → α → σ} {enter : α → Bool}
    (hdown : ∀ s a, down s a =
      if enter a then (b.parts a).foldl down (step s a) else step s a)
    (s : σ) (stack : List α) :
    b.drain (m := Id) (fun s a => (step s a, enter a)) s stack = stack.reverse.foldl down s := by
  have hfold : ∀ (xs : List α) (s : σ), xs.foldlM (m := Id) down s = xs.foldl down s := by
    intro xs
    induction xs with
    | nil => exact fun s => rfl
    | cons x xs ih => exact fun s => ih (down s x)
  have hdownM : ∀ (s : σ) (a : α), True → down s a = bind (m := Id) (step s a) fun s' =>
      if enter a then (b.parts a).foldlM (m := Id) down s' else pure s' := by
    intro s a _
    rw [hdown s a, ← hfold]
    rfl
  exact (b.drain_eq (m := Id) (fun _ _ _ => rfl) hdownM (fun _ _ _ _ _ => trivial) s stack
    fun _ _ => trivial).trans (hfold _ s)

end Branching
end YamlServer
