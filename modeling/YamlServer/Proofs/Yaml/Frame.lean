import YamlServer.Yaml.Event

/-!
# What is due in an event stream

What is still due at some point of an event stream is a stack of frames: the nodes and ends of the
collections that are open, and the end of the document. Every event passes the first frame, and may
put others in its place.

* `Frame`, `EventKind.pass`: what is due, and what an event leaves due.
* `Bracketed`: events that pass frame after frame. They may end early.
-/

namespace YamlServer
namespace Yaml

/-- What is due: a node, the items of a sequence and its end, the entries of a mapping and its end,
the end of a document, or further documents. -/
inductive Frame where
  | node
  | items
  | entries
  | documentEnd
  | stream
deriving Repr, DecidableEq

def EventKind.opening : EventKind → Option (List Frame)
  | .alias _ | .scalar _ _ _ => some []
  | .sequenceStart _ => some [.items]
  | .mappingStart _ => some [.entries]
  | _ => none

def EventKind.pass (k : EventKind) : List Frame → Option (List Frame)
  | .node :: due => k.opening.map (· ++ due)
  | .items :: due =>
    if k = .sequenceEnd then some due else k.opening.map (· ++ .items :: due)
  -- The first event of an entry belongs to its key, so the value is due after it.
  | .entries :: due =>
    if k = .mappingEnd then some due else k.opening.map (· ++ .node :: .entries :: due)
  | .documentEnd :: due => if k = .documentEnd then some due else none
  | .stream :: due =>
    if k = .documentStart then some (.node :: .documentEnd :: .stream :: due) else none
  | [] => none

/-- Events that pass what is due, one after the other, up to the end of the stream. -/
def Bracketed : List Frame → List Event → Prop
  | _, [] => True
  | due, e :: rest =>
    (e.kind = .streamEnd ∧ rest = [] ∧ ∃ more, due = .stream :: more) ∨
      ∃ due', e.kind.pass due = some due' ∧ Bracketed due' rest

namespace Bracketed

variable {due : List Frame} {e : Event} {rest : List Event}

/-- A node's first event is one that opens it. -/
theorem node (h : Bracketed (.node :: due) (e :: rest)) :
    ∃ inner, e.kind.opening = some inner ∧ Bracketed (inner ++ due) rest := by
  rcases h with ⟨-, -, more, hmore⟩ | ⟨due', hpass, hrest⟩
  · cases hmore
  · rcases Option.map_eq_some_iff.1 hpass with ⟨inner, hinner, rfl⟩
    exact ⟨inner, hinner, hrest⟩

/-- What is no end of a sequence opens an item, with the other items due after it. -/
theorem items (h : Bracketed (.items :: due) (e :: rest)) :
    e.kind = .sequenceEnd ∧ Bracketed due rest ∨
      e.kind ≠ .sequenceEnd ∧ Bracketed (.node :: .items :: due) (e :: rest) := by
  rcases h with ⟨-, -, more, hmore⟩ | ⟨due', hpass, hrest⟩
  · cases hmore
  · rw [EventKind.pass] at hpass
    split at hpass
    · rename_i hkind
      cases hpass
      exact Or.inl ⟨hkind, hrest⟩
    · rename_i hkind
      exact Or.inr ⟨hkind, Or.inr ⟨due', hpass, hrest⟩⟩

/-- What is no end of a mapping opens a key, with its value and the other entries due after it. -/
theorem entries (h : Bracketed (.entries :: due) (e :: rest)) :
    e.kind = .mappingEnd ∧ Bracketed due rest ∨
      e.kind ≠ .mappingEnd ∧ Bracketed (.node :: .node :: .entries :: due) (e :: rest) := by
  rcases h with ⟨-, -, more, hmore⟩ | ⟨due', hpass, hrest⟩
  · cases hmore
  · rw [EventKind.pass] at hpass
    split at hpass
    · rename_i hkind
      cases hpass
      exact Or.inl ⟨hkind, hrest⟩
    · rename_i hkind
      exact Or.inr ⟨hkind, Or.inr ⟨due', hpass, hrest⟩⟩

theorem documentEnd (h : Bracketed (.documentEnd :: due) (e :: rest)) :
    e.kind = .documentEnd ∧ Bracketed due rest := by
  rcases h with ⟨-, -, more, hmore⟩ | ⟨due', hpass, hrest⟩
  · cases hmore
  · rw [EventKind.pass] at hpass
    split at hpass
    · rename_i hkind
      cases hpass
      exact ⟨hkind, hrest⟩
    · cases hpass

/-- Between documents the stream ends, or a document starts. -/
theorem stream (h : Bracketed (.stream :: due) (e :: rest)) :
    e.kind = .streamEnd ∧ rest = [] ∨
      e.kind = .documentStart ∧ Bracketed (.node :: .documentEnd :: .stream :: due) rest := by
  rcases h with ⟨hkind, hnil, -⟩ | ⟨due', hpass, hrest⟩
  · exact Or.inl ⟨hkind, hnil⟩
  · rw [EventKind.pass] at hpass
    split at hpass
    · rename_i hkind
      cases hpass
      exact Or.inr ⟨hkind, hrest⟩
    · cases hpass

end Bracketed

theorem EventKind.pass_getLast? {k : EventKind} {due due' : List Frame}
    (h : k.pass due = some due') (hlast : due.getLast? = some .stream) :
    due'.getLast? = some .stream := by
  have hinner : ∀ {rest : List Frame}, rest.getLast? = some .stream →
      k.opening.map (· ++ rest) = some due' → due'.getLast? = some .stream := by
    intro rest hrest hopen
    rcases Option.map_eq_some_iff.1 hopen with ⟨inner, -, rfl⟩
    rw [List.getLast?_append, hrest]
    rfl
  -- Whatever stands before the last frame can be dropped.
  have htail : ∀ {f : Frame} {rest : List Frame}, f ≠ .stream →
      (f :: rest).getLast? = some .stream → rest.getLast? = some .stream := by
    intro f rest hf hrest
    cases rest with
    | nil => exact absurd (Option.some.inj hrest) hf
    | cons f' rest => rwa [List.getLast?_cons_cons] at hrest
  cases due with
  | nil => cases h
  | cons f rest =>
    cases f with
    | node => exact hinner (htail (by decide) hlast) h
    | items =>
      rw [EventKind.pass] at h
      split at h
      · cases h
        exact htail (by decide) hlast
      · exact hinner hlast h
    | entries =>
      rw [EventKind.pass] at h
      split at h
      · cases h
        exact htail (by decide) hlast
      · refine hinner ?_ h
        rw [List.getLast?_cons_cons]
        exact hlast
    | documentEnd =>
      rw [EventKind.pass] at h
      split at h
      · cases h
        exact htail (by decide) hlast
      · cases h
    | stream =>
      rw [EventKind.pass] at h
      split at h
      · cases h
        rw [List.getLast?_cons_cons, List.getLast?_cons_cons]
        exact hlast
      · cases h

@[simp]
theorem EventKind.pass_streamEnd (due : List Frame) : EventKind.streamEnd.pass due = none := by
  cases due with
  | nil => rfl
  | cons f rest => cases f <;> rfl

end Yaml
end YamlServer
