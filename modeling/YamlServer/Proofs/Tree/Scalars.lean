import YamlServer.Proofs.Tree.Image
import YamlServer.Proofs.Yaml.Unvalued

/-!
# The scalars of a tree

The scalars of a composed node, from the top, are the scalars of its tree, each with the value that
its text has under its tag. If one of them has no value, there is no tree, and the first of them
says why.

* `Tree.mapM_scalarOf_eq_ok`: tags and texts are kept, and so is a text without a value.
-/

namespace YamlServer

namespace Yaml
namespace Node

def text? : Node → Option (String × String)
  | .scalar _ _ tag content _ => some (tag, content)
  | _ => none

def texts (n : Node) : List (String × String) :=
  n.walk.filterMap text?

@[simp]
theorem texts_sequence (id : Nat) (span : Span) (tag : String) (items : List Node) :
    (Node.sequence id span tag items).texts = items.flatMap texts := by
  rw [texts, walk, walkItems_eq, List.filterMap_cons_none rfl, List.filterMap_flatMap]
  rfl

@[simp]
theorem texts_mapping (id : Nat) (span : Span) (tag : String) (entries : List (Node × Node)) :
    (Node.mapping id span tag entries).texts = entries.flatMap fun e => e.1.texts ++ e.2.texts := by
  rw [texts, walk, walkEntries_eq, List.filterMap_cons_none rfl, List.filterMap_flatMap]
  simp only [List.filterMap_append]
  rfl

end Node
end Yaml

namespace Tree

open Yaml Outcome

def scalar? : Tree → Option (Option String × String × Value)
  | .scalar info value raw _ => some (info.tag, raw, value)
  | _ => none

def scalars (t : Tree) : List (Option String × String × Value) :=
  t.walk.filterMap scalar?

theorem scalars_eq (t : Tree) : t.scalars = t.scalar?.toList ++ t.children.flatMap scalars := by
  have hwalk : t.walk = [t] ++ t.children.flatMap walk := walk_eq t
  have hhead : [t].filterMap scalar? = t.scalar?.toList := by
    cases t <;> rfl
  rw [scalars, hwalk, List.filterMap_append, hhead, List.filterMap_flatMap]
  rfl

def scalarOf (s : String × String) : Except Scalar.Fault (Option String × String × Value) :=
  (scalarValue s.1 s.2).map fun value => (some s.1, s.2, value)

theorem map_scalars_imageItems {a : Attached} {items : List Node}
    (h : ∀ n ∈ items, (image a n).map scalars = n.texts.mapM scalarOf) :
    (imageItems a items).map (·.flatMap scalars) = (items.flatMap Node.texts).mapM scalarOf := by
  induction items with
  | nil => rfl
  | cons n rest ih =>
    have hrest := ih fun m hm => h m (List.mem_cons_of_mem _ hm)
    rw [imageItems, List.flatMap_cons, List.mapM_append, ← h n List.mem_cons_self, ← hrest]
    -- Both sides stop at the first scalar without a value.
    cases image a n with
    | error f => rfl
    | ok t =>
      cases imageItems a rest with
      | error f => rfl
      | ok more => rfl

theorem map_scalars_imageEntries {a : Attached} {entries : List (Node × Node)}
    (h : ∀ e ∈ entries, (image a e.1).map scalars = e.1.texts.mapM scalarOf ∧
      (image a e.2).map scalars = e.2.texts.mapM scalarOf) :
    (imageEntries a entries).map (·.flatMap scalars) =
      (entries.flatMap fun e => e.1.texts ++ e.2.texts).mapM scalarOf := by
  -- A pair is no scalar itself.
  have hpair : ∀ key value : Tree,
      (Tree.pair (some key) (some value)).scalars = key.scalars ++ value.scalars := by
    intro key value
    rw [scalars_eq]
    simp [scalar?, children]
  induction entries with
  | nil => rfl
  | cons e rest ih =>
    have hrest := ih fun e' he' => h e' (List.mem_cons_of_mem _ he')
    rcases h e List.mem_cons_self with ⟨hkey, hvalue⟩
    rw [List.flatMap_cons, List.mapM_append, List.mapM_append, ← hkey, ← hvalue, ← hrest,
      imageEntries]
    cases image a e.1 with
    | error f => rfl
    | ok key =>
      cases image a e.2 with
      | error f => rfl
      | ok value =>
        cases imageEntries a rest with
        | error f => rfl
        | ok more =>
          change Except.ok ((Tree.pair (some key) (some value)).scalars ++
            more.flatMap scalars) = _
          rw [hpair]
          rfl

/-- The scalars of a tree are those of the node, from the top, with their values. -/
theorem map_scalars_image (a : Attached) (n : Node) :
    (image a n).map scalars = n.texts.mapM scalarOf := by
  induction n using Node.induction_below with
  | scalar id span tag content style =>
    have htexts : (Node.scalar id span tag content style).texts = [(tag, content)] := rfl
    rw [htexts, image, List.mapM_cons, List.mapM_nil, scalarOf]
    cases scalarValue tag content with
    | error f => rfl
    | ok value => rfl
  | sequence id span tag items ih =>
    rw [Node.texts_sequence, ← map_scalars_imageItems ih, image]
    cases imageItems a items with
    | error f => rfl
    | ok ts => exact congrArg Except.ok (scalars_eq _)
  | mapping id span tag entries ih =>
    rw [Node.texts_mapping, ← map_scalars_imageEntries ih, image]
    cases imageEntries a entries with
    | error f => rfl
    | ok ts => exact congrArg Except.ok (scalars_eq _)
  | leaf id span anchor target => rfl

/-- All scalars are given values if none of them is without one. -/
theorem mapM_scalarOf_isOk {texts : List (String × String)} :
    (∃ scalars, texts.mapM scalarOf = .ok scalars) ↔ ∀ s ∈ texts, ¬ Scalar.Unvalued s.1 s.2 := by
  constructor
  · rintro ⟨scalars, hscalars⟩ s hs hunvalued
    rcases (mapM_eq_ok hscalars).2 s hs with ⟨r, -, hr⟩
    rcases scalarValue_error_iff.2 hunvalued with ⟨f, hf⟩
    rw [scalarOf, hf] at hr
    cases hr
  · intro hvalued
    cases hscalars : texts.mapM scalarOf with
    | ok scalars => exact ⟨scalars, rfl⟩
    | error f =>
      -- The fault is that of some scalar, which then has no value.
      rcases mapM_eq_error hscalars with ⟨s, hs, hfail⟩
      have hunvalued := scalarValue_error_iff.1 ⟨f, map_eq_error.1 hfail⟩
      exact absurd hunvalued (hvalued s hs)

/-- Scalars that are given values keep their tags and texts. -/
theorem mapM_scalarOf_eq_ok {texts : List (String × String)}
    {scalars : List (Option String × String × Value)} (h : texts.mapM scalarOf = .ok scalars) :
    (scalars.map fun r => (r.1, r.2.1)) = (texts.map fun s => (some s.1, s.2)) ∧
      ∀ r ∈ scalars, ∃ tag, r.1 = some tag ∧ Valued tag r.2.1 r.2.2 := by
  induction texts generalizing scalars with
  | nil =>
    cases h
    refine ⟨rfl, ?_⟩
    intro r hr
    cases hr
  | cons s rest ih =>
    rw [List.mapM_cons] at h
    rcases bind_eq_ok.1 h with ⟨r, hr, hrest⟩
    rcases bind_eq_ok.1 hrest with ⟨more, hmore, hlast⟩
    cases hlast
    rcases ih hmore with ⟨htexts, hvalued⟩
    cases hvalue : scalarValue s.1 s.2 with
    | error f =>
      rw [scalarOf, hvalue] at hr
      cases hr
    | ok value =>
      rw [scalarOf, hvalue] at hr
      cases hr
      refine ⟨by rw [List.map_cons, List.map_cons, htexts], ?_⟩
      intro r hr
      rcases List.mem_cons.1 hr with rfl | hr
      · exact ⟨s.1, rfl, valued_of_scalarValue hvalue⟩
      · exact hvalued r hr

end Tree
end YamlServer
