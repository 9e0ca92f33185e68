import YamlServer.Proofs.Document.Reading
import YamlServer.Proofs.Yaml.EventOrder

/-!
# The documents of a text in a row

Composing goes from document to document and ends with the first fault. The fault may come while a
root is composed, after the root, or between two documents; in the last case it has a document of
its own, which starts at the place the fault is about. That this document still stands after the
others depends on where faults are: no fault of the tokens or of the grammar is about a place that
lies before the end of an event.

* `DocumentSet.succession_of_composes`: the documents of a text that can be composed.
-/

namespace YamlServer

open Yaml

namespace Yaml

/-- The fault by which the events of a text stop is about a place of the text behind all of them. -/
theorem EventStream.inOrder_of_fault_ofChars {cs : List Char} {f : Fault}
    (h : (ofTokens (TokenStream.ofChars cs)).halt = some (.fault f)) :
    f.offset ≤ cs.length ∧
      InOrder Event.extent 0 f.offset (ofTokens (TokenStream.ofChars cs)).events := by
  -- A fault of the tokens stands behind all tokens, one of the grammar behind those that were read.
  rcases inOrder_of_fault (TokenStream.inOrder_ofChars cs) h with htokens | hgrammar
  · rcases TokenStream.inOrder_of_fault htokens with ⟨hle, htokens⟩
    exact ⟨hle, inOrder_ofTokens htokens⟩
  · exact hgrammar

namespace Composed

def extent (c : Composed) : Nat × Nat :=
  (c.start, c.stop)

/-- Documents that stand in a row from `lo` on. Only the last one may have a fault, and one without
a fault has a root. -/
structure Succession (lo size : Nat) (documents : List Composed) : Prop where
  placed : InOrder Composed.extent lo size documents
  clean : ∀ c ∈ documents.dropLast, c.fault = none
  rooted : ∀ c ∈ documents, c.fault = none → c.root.isSome

namespace Succession

variable {lo size : Nat}

theorem nil (h : lo ≤ size) : Succession lo size [] := by
  refine ⟨inOrder_nil.2 h, ?_, ?_⟩
  · intro c hc
    cases hc
  · intro c hc
    cases hc

/-- The last document reaches to the end of the text. -/
theorem last {root : Option Node} {start : Nat} {fault : Option Fault} (hlo : lo ≤ start)
    (hstart : start ≤ size) (hrooted : fault = none → root.isSome) :
    Succession lo size [⟨root, start, size, fault⟩] := by
  refine ⟨inOrder_cons.2 ⟨hlo, hstart, inOrder_nil.2 (Nat.le_refl size)⟩, ?_, ?_⟩
  · intro c hc
    cases hc
  · intro c hc
    obtain rfl := List.mem_singleton.1 hc
    exact hrooted

/-- A document before others has its root and no fault. -/
theorem cons {root : Node} {start stop : Nat} {documents : List Composed} (hlo : lo ≤ start)
    (hstart : start ≤ stop) (h : Succession stop size documents) :
    Succession lo size (⟨some root, start, stop, none⟩ :: documents) := by
  refine ⟨inOrder_cons.2 ⟨hlo, hstart, h.placed⟩, ?_, ?_⟩
  · intro c hc
    cases documents with
    | nil => cases hc
    | cons d rest =>
      rw [List.dropLast_cons_cons] at hc
      rcases List.mem_cons.1 hc with rfl | hc
      · rfl
      · exact h.clean c hc
  · intro c hc
    rcases List.mem_cons.1 hc with rfl | hc
    · exact fun _ => rfl
    · exact h.rooted c hc

end Succession

/-- The events behind a document follow the end of its last event. -/
theorem inOrder_of_suffix {lo hi : Nat} {first stop : Event} {rest more : List Event}
    (hleft : stop :: more <:+ rest) (h : InOrder Event.extent lo hi (first :: rest)) :
    first.start.index ≤ stop.stop.index ∧ InOrder Event.extent stop.stop.index hi more := by
  rcases inOrder_cons.1 h with ⟨-, hwidth, hrest⟩
  rcases inOrder_cons.1 (hrest.sublist hleft.sublist) with ⟨hbehind, hstop, hmore⟩
  exact ⟨Nat.le_trans hwidth (Nat.le_trans hbehind hstop), hmore⟩

/-- Composing gives documents in a row, if the fault by which the events stop stands behind them,
and if there is one wherever the events stop early without a fault of an anchor. -/
theorem succession_ofEventsFrom {lo size : Nat} {halt : Option Halt} {fuel : Nat}
    {events : List Event} (known : List String) (hbracketed : Bracketed [.stream] events)
    (horder : InOrder Event.extent lo size events)
    (hplace : ∀ f, haltFault? halt = some f →
      f.offset ≤ size ∧ InOrder Event.extent lo f.offset events)
    (hstopped : (∀ e ∈ events, e.kind ≠ .streamEnd) → anchorFault? known events = none →
      haltFault? halt ≠ none) :
    Succession lo size (ofEventsFrom size halt fuel events) := by
  -- On the documents. What is known of the events is known of those behind the first document, with
  -- the anchors that were read until then.
  induction fuel generalizing lo events known with
  | zero => exact Succession.nil horder.le
  | succ fuel ih =>
    cases events with
    | nil =>
      rw [ofEventsFrom]
      cases hfault : haltFault? halt with
      | none => exact Succession.nil horder.le
      | some f =>
        rcases hplace f hfault with ⟨hle, hlo⟩
        exact Succession.last hlo.le hle fun hnone => by cases hnone
    | cons e rest =>
      rcases inOrder_cons.1 horder with ⟨hlo, hwidth, hrest⟩
      have hstart : e.start.index ≤ size := Nat.le_trans hwidth hrest.le
      rw [ofEventsFrom]
      rcases hbracketed.stream with ⟨hkind, -⟩ | ⟨hkind, hinner⟩
      · rw [if_pos (beq_iff_eq.2 hkind)]
        exact Succession.nil horder.le
      · have hopen : ¬ (e.kind == .streamEnd) = true := by
          rw [hkind]
          decide
        have hnote : e.note known = .ok [] := by rw [Event.note, hkind]
        have hroot := NodeReader.root_meets hinner
        rw [if_neg hopen]
        rw [anchorFault?_ok hnote] at hstopped
        cases hnode : NodeReader.root rest with
        | error stop =>
          rw [hnode] at hroot
          cases stop with
          | fault f => exact Succession.last hlo hstart fun hnone => by cases hnone
          | exhausted =>
            -- The events end inside the root, and no anchor is at fault.
            refine Succession.last hlo hstart fun hnone => absurd hnone (hstopped ?_ hroot.1)
            exact List.forall_mem_cons.2 ⟨fun hend => hopen (beq_iff_eq.2 hend), hroot.2⟩
        | ok composed =>
          rw [hnode] at hroot
          rcases hroot with ⟨hahead, hafter, hleft⟩
          rcases composed with ⟨root, after⟩
          dsimp only at hahead hafter hleft ⊢
          cases hevents : after.events with
          -- The events end behind the root: the document keeps it, with or without a fault.
          | nil => exact Succession.last hlo hstart fun _ => rfl
          | cons stop more =>
            rw [hevents] at hafter hleft
            rcases hafter.documentEnd with ⟨hstop, hmore⟩
            rcases inOrder_of_suffix hleft horder with ⟨hspan, horder'⟩
            refine Succession.cons hlo hspan (ih after.known hmore horder' ?_ ?_)
            · intro f hfault
              rcases hplace f hfault with ⟨hle, hbehind⟩
              exact ⟨hle, (inOrder_of_suffix hleft hbehind).2⟩
            -- An early end of the events left is one of all events.
            · intro hunended hanchors
              have hnote' : stop.note after.known = .ok after.known := by
                rw [Event.note, hstop]
              have hafter' : after.Unended := by
                rw [NodeReader.Unended, hevents, List.forall_mem_cons, hstop]
                exact ⟨EventKind.noConfusion, hunended⟩
              have hfault : after.fault? = none := by
                rw [NodeReader.fault?, hevents, anchorFault?_ok hnote', hanchors]
              refine hstopped (List.forall_mem_cons.2 ⟨?_, hahead.unended hafter'⟩) ?_
              · exact fun hend => hopen (beq_iff_eq.2 hend)
              · exact hahead.fault.symm.trans hfault

@[simp]
theorem haltFault?_eq_some {halt : Option Halt} {f : Fault} :
    haltFault? halt = some f ↔ halt = some (.fault f) := by
  rcases halt with _ | ⟨f' | n | _⟩ <;> simp [haltFault?]

/-- There are no documents if none starts and there is no fault. -/
theorem ofEventsFrom_eq_nil_iff {size : Nat} {halt : Option Halt} {fuel : Nat} {events : List Event}
    (hbracketed : Bracketed [.stream] events) :
    ofEventsFrom size halt (fuel + 1) events = [] ↔ (∀ e ∈ events, e.kind ≠ .documentStart) ∧
      (events = [] → haltFault? halt = none) := by
  cases events with
  | nil => simp [ofEventsFrom]
  | cons e rest =>
    rw [ofEventsFrom]
    rcases hbracketed.stream with ⟨hkind, rfl⟩ | ⟨hkind, -⟩
    · rw [if_pos (beq_iff_eq.2 hkind)]
      simp [hkind]
    · rw [if_neg (by rw [hkind]; decide)]
      refine iff_of_false ?_ fun h => h.1 e List.mem_cons_self hkind
      split
      · simp
      · simp
      · split <;> simp

end Composed
end Yaml

namespace DocumentSet

/-- Composing a text comes to an end of its own: what stops the events is a fault that a document
shows, if they are stopped at all, or a fault of an anchor comes before. -/
def Composes (source : String) : Prop :=
  (eventsOf source).halt.filter isFatal = none ∨
    (anchorFault? [] (eventsOf source).events).isSome

instance (source : String) : Decidable (Composes source) :=
  inferInstanceAs (Decidable (_ ∨ _))

theorem haltFault?_of_unended {source : String} (h : Composes source)
    (hunended : ∀ e ∈ (eventsOf source).events, e.kind ≠ .streamEnd)
    (hanchors : anchorFault? [] (eventsOf source).events = none) :
    Composed.haltFault? (eventsOf source).halt ≠ none := by
  have hstopped : (eventsOf source).halt ≠ none := by
    intro hnone
    rcases (complete_eventsOf_iff source).2 hnone with ⟨e, he, hkind⟩
    exact hunended e he hkind
  rcases h with hfatal | hanchor
  · cases hhalt : (eventsOf source).halt with
    | none => exact absurd hhalt hstopped
    | some halt =>
      rw [hhalt] at hfatal
      cases halt with
      | fault f => exact Option.some_ne_none f
      | codePoint n => cases hfatal
      | longNumeral => cases hfatal
  · rw [hanchors] at hanchor
    cases hanchor

def composedOf (source : String) : List Composed :=
  Composed.ofEvents source.toList.length (eventsOf source)

theorem faults_composedOf (source : String) :
    (composedOf source).filterMap (·.fault) = (rejection? source).toList :=
  Composed.faults_ofEvents _ _

/-- The documents of a text that can be composed stand in a row within it, each stopping before the
next one starts. Only the last one may have a fault, which then is the first one of the text, and
one without a fault has a root. There are no documents only if none starts and nothing is wrong. -/
theorem succession_of_composes {source : String} (h : Composes source) :
    Composed.Succession 0 source.toList.length (composedOf source) ∧
      (composedOf source).filterMap (·.fault) = (rejection? source).toList ∧
      (composedOf source = [] ↔
        (∀ e ∈ (eventsOf source).events, e.kind ≠ .documentStart) ∧ rejection? source = none) := by
  have hbracketed : Bracketed [.stream] (eventsOf source).events :=
    EventStream.bracketed_ofTokens _
  refine ⟨?_, faults_composedOf source, ?_, ?_⟩
  · refine Composed.succession_ofEventsFrom [] hbracketed ?_ ?_ (haltFault?_of_unended h)
    · exact EventStream.inOrder_ofTokens (TokenStream.inOrder_ofChars source.toList)
    · exact fun f hfault =>
        EventStream.inOrder_of_fault_ofChars (Composed.haltFault?_eq_some.1 hfault)
  · intro hnil
    refine ⟨((Composed.ofEventsFrom_eq_nil_iff hbracketed).1 hnil).1, ?_⟩
    rw [← Option.toList_eq_nil_iff, ← faults_composedOf, hnil]
    rfl
  · rintro ⟨hstarts, hrejection⟩
    refine (Composed.ofEventsFrom_eq_nil_iff hbracketed).2 ⟨hstarts, fun _ => ?_⟩
    exact (Option.or_eq_none_iff.1 hrejection).2

/-- Two documents, the second of which is an open list. -/
def openListText : String :=
  "a: 1\n---\n[b\n"

theorem succession_of_composes_openListText :
    Composes openListText ∧
      (composedOf openListText).map (fun c => (c.extent, c.fault.isSome)) =
        [((0, 5), false), ((5, 12), true)] ∧
      Composed.Succession 0 openListText.toList.length (composedOf openListText) := by
  have h : Composes openListText := by decide +kernel
  exact ⟨h, by decide +kernel, (succession_of_composes h).1⟩

end DocumentSet
end YamlServer
