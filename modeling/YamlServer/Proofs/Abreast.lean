import Mathlib.Data.List.Forall2

/-!
# Lists side by side

Two lists that were made from a third one, element by element, match each other wherever what they
were made into matches.

* `Abreast.common`: two lists beside the same one are side by side themselves.
* `Abreast.flatMap`: lists made of the parts of two such lists.
* `Abreast.map_eq_map`, `Abreast.foldl_eq`: computing from two such lists.
-/

namespace YamlServer
namespace Abreast

variable {α β γ : Type} {R : α → β → Prop} {S : α → γ → Prop} {xs : List α} {ys : List β}
  {zs : List γ}

theorem exists_of_mem (h : List.Forall₂ R xs ys) {x : α} (hx : x ∈ xs) : ∃ y ∈ ys, R x y := by
  induction h with
  | nil => cases hx
  | @cons a b as bs hab _ ih =>
    rcases List.mem_cons.1 hx with rfl | hx
    · exact ⟨b, List.mem_cons_self, hab⟩
    · rcases ih hx with ⟨y, hy, hxy⟩
      exact ⟨y, List.mem_cons_of_mem _ hy, hxy⟩

theorem common (hy : List.Forall₂ R xs ys) (hz : List.Forall₂ S xs zs) :
    List.Forall₂ (fun y z => ∃ x ∈ xs, R x y ∧ S x z) ys zs := by
  induction hy generalizing zs with
  | nil =>
    cases hz
    exact .nil
  | @cons a b as bs hab _ ih =>
    cases hz with
    | cons hac hrest =>
      refine .cons ⟨a, List.mem_cons_self, hab, hac⟩ ?_
      refine (ih hrest).imp ?_
      rintro y z ⟨x, hx, hboth⟩
      exact ⟨x, List.mem_cons_of_mem _ hx, hboth⟩

theorem flatMap {δ ε : Type} {T : δ → ε → Prop} {f : α → List δ} {g : β → List ε}
    (h : List.Forall₂ R xs ys)
    (hfg : ∀ x ∈ xs, ∀ y, R x y → List.Forall₂ T (f x) (g y)) :
    List.Forall₂ T (xs.flatMap f) (ys.flatMap g) := by
  induction h with
  | nil => exact .nil
  | @cons a b as bs hab _ ih =>
    have hfirst := hfg a List.mem_cons_self b hab
    have hothers := ih fun x hx => hfg x (List.mem_cons_of_mem _ hx)
    exact List.rel_append hfirst hothers

theorem map_eq_map {δ : Type} {f : β → δ} {g : γ → δ} {T : β → γ → Prop} (h : List.Forall₂ T ys zs)
    (hfg : ∀ y z, T y z → f y = g z) : ys.map f = zs.map g := by
  induction h with
  | nil => rfl
  | cons hyz _ ih => rw [List.map_cons, List.map_cons, hfg _ _ hyz, ih]

/-- Folding over both lists, where one fold is the image of the other. -/
theorem foldl_eq {δ ε : Type} {f : δ → β → δ} {g : ε → γ → ε} {T : β → γ → Prop}
    (image : ε → δ) (h : List.Forall₂ T ys zs)
    (hstep : ∀ y z, T y z → ∀ acc, f (image acc) y = image (g acc z)) (acc : ε) :
    ys.foldl f (image acc) = image (zs.foldl g acc) := by
  induction h generalizing acc with
  | nil => rfl
  | cons hyz _ ih => rw [List.foldl_cons, List.foldl_cons, hstep _ _ hyz, ih]

end Abreast
end YamlServer
