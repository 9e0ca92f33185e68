import YamlServer.Proofs.Yaml.Brackets
import YamlServer.Proofs.Yaml.EventPlace
import YamlServer.Proofs.Yaml.TokenOrder

/-!
# The events of a text stand in order

Every event starts where the one before it stops or later. That is not quite what the grammar keeps
of its tokens, since an event may stop after a token that it only announces. Such a token is dropped
next, so nothing is read there twice.

* `EventStream.inOrder_ofTokens`: the events of tokens in order stand in order.
* `EventStream.inOrder_of_fault`: a fault that stops them stands behind them.
-/

namespace YamlServer
namespace Yaml

def Event.extent (e : Event) : Nat × Nat :=
  (e.start.index, e.stop.index)

namespace Grammar

/-- After an event that stops at `lo`, the tokens to come stand in order from there up to `hi`. An
announced token starts before `lo` but stops after it. -/
def Ready (lo hi : Nat) (g : Grammar) : Prop :=
  InOrder Token.extent lo hi g.tokens ∨
    g.Announced ∧ ∃ t rest, g.tokens = t :: rest ∧ lo ≤ t.stop.index ∧
      InOrder Token.extent t.stop.index hi rest

/-- After the event `e`, the tokens to come stand in order up to `hi`. An announced token starts
with the event or later, which then opens a collection. -/
def Since (e : Event) (hi : Nat) (g : Grammar) : Prop :=
  InOrder Token.extent e.stop.index hi g.tokens ∨
    e.kind.opensCollection = true ∧ g.Announced ∧ ∃ t rest, g.tokens = t :: rest ∧
      e.start.index ≤ t.start.index ∧ t.start.index ≤ t.stop.index ∧
      e.stop.index ≤ t.stop.index ∧ InOrder Token.extent t.stop.index hi rest

/-- If a step gives an event, it starts at `lo` or later, and the tokens to come stand after it. A
fault is about a place from there on. -/
structure Yields (lo hi : Nat) (o : Outcome) : Prop where
  event : ∀ e next, o = .event e next →
    lo ≤ e.start.index ∧ e.start.index ≤ e.stop.index ∧ Since e hi next
  fault : ∀ f, o = .fault f → lo ≤ f.offset ∧ f.offset ≤ hi

variable {lo hi : Nat} {g : Grammar}

theorem Edge.inOrder {tokens after : List Token} {m : Mark} (h : Edge tokens m after)
    (horder : InOrder Token.extent lo hi tokens) :
    lo ≤ m.index ∧ InOrder Token.extent m.index hi after := by
  cases h with
  | start h =>
    have hcons := inOrder_cons.1 (horder.sublist h.sublist)
    exact ⟨hcons.1, inOrder_cons.2 ⟨Nat.le_refl _, hcons.2⟩⟩
  | stop h =>
    have hcons := inOrder_cons.1 (horder.sublist h.sublist)
    exact ⟨Nat.le_trans hcons.1 hcons.2.1, hcons.2.2⟩

/-- What stands among tokens in order is in order with them. -/
theorem Gives.yields {tokens : List Token} {o : Outcome} (h : Gives tokens o)
    (horder : InOrder Token.extent lo hi tokens) : Yields lo hi o := by
  refine ⟨?_, ?_⟩
  · rintro e next rfl
    cases h with
    | spans hstart hstop =>
      rcases hstart.inOrder horder with ⟨hlo, hrest⟩
      rcases hstop.inOrder hrest with ⟨hle, hnext⟩
      exact ⟨hlo, hle, Or.inl hnext⟩
    | stands hstart hstop =>
      rcases hstart.inOrder horder with ⟨hlo, hnext⟩
      rw [← hstop] at hnext
      exact ⟨hlo, Nat.le_of_eq (congrArg Mark.index hstop.symm), Or.inl hnext⟩
    | announces hopens hannounced hstart hnext htokens hstop =>
      rcases hstart.inOrder horder with ⟨hlo, hrest⟩
      rcases inOrder_cons.1 (hrest.sublist hnext.sublist) with ⟨hle, hwidth, hafter⟩
      rw [hstop]
      exact ⟨hlo, Nat.le_trans hle hwidth, Or.inr ⟨hopens, hannounced, _, _, htokens, hle, hwidth,
        Nat.le_of_eq (congrArg Mark.index hstop), hafter⟩⟩
  · rintro f rfl
    cases h with
    | fault h hoffset =>
      rcases h.inOrder horder with ⟨hlo, hafter⟩
      rw [hoffset]
      exact ⟨hlo, hafter.le⟩

theorem Yields.mono {lo' : Nat} {o : Outcome} (h : Yields lo hi o) (hlo : lo' ≤ lo) :
    Yields lo' hi o := by
  constructor
  · intro e next heq
    rcases h.event e next heq with ⟨hstart, hstop, hnext⟩
    exact ⟨Nat.le_trans hlo hstart, hstop, hnext⟩
  · intro f heq
    rcases h.fault f heq with ⟨hstart, hhi⟩
    exact ⟨Nat.le_trans hlo hstart, hhi⟩

theorem Since.ready {e : Event} (h : Since e hi g) : Ready e.stop.index hi g := by
  rcases h with h | ⟨-, hann, t, rest, htokens, -, -, hstop, hrest⟩
  · exact Or.inl h
  · exact Or.inr ⟨hann, t, rest, htokens, hstop, hrest⟩

namespace Ready

theorem le (h : Ready lo hi g) : lo ≤ hi := by
  rcases h with h | ⟨-, t, rest, -, hstop, hrest⟩
  · exact h.le
  · exact Nat.le_trans hstop hrest.le

/-- Whether the first token was announced or not, it stops after the last event. -/
theorem head (h : Ready lo hi g) {t : Token} {rest : List Token} (htokens : g.tokens = t :: rest) :
    lo ≤ t.stop.index ∧ InOrder Token.extent t.stop.index hi rest := by
  rcases h with h | ⟨-, t', rest', htokens', hstop, hrest⟩
  · rw [htokens, inOrder_cons] at h
    exact ⟨Nat.le_trans h.1 h.2.1, h.2.2⟩
  · rw [htokens] at htokens'
    cases htokens'
    exact ⟨hstop, hrest⟩

theorem opened (h : Ready lo hi g) : InOrder Token.extent lo hi g.opened.tokens := by
  cases htokens : g.tokens with
  | nil =>
    rw [Grammar.opened, htokens]
    exact inOrder_nil.2 h.le
  | cons t rest =>
    rw [Grammar.opened, htokens]
    rcases h.head htokens with ⟨hstop, hrest⟩
    exact hrest.mono hstop (Nat.le_refl hi)

theorem inOrder (h : Ready lo hi g) (hannounced : ¬ g.Announced) :
    InOrder Token.extent lo hi g.tokens := by
  rcases h with h | ⟨hann, -⟩
  · exact h
  · exact absurd hann hannounced

end Ready

/-! ## Steps -/

/-- After an indicator that stops at `m`, an empty scalar stands at `m`. -/
theorem yields_nodeUnless (ends : TokenKind → Bool) (block indentless : Bool) {m : Mark}
    (e : Expect) (h : InOrder Token.extent m.index hi g.tokens) :
    Yields m.index hi (g.nodeUnless ends block indentless m e) := by
  unfold nodeUnless
  split
  · exact Gives.exhausted.yields h
  · split
    · refine ⟨?_, ?_⟩
      · rintro e' next ⟨⟩
        exact ⟨Nat.le_refl _, Nat.le_refl _, Or.inl h⟩
      · rintro f ⟨⟩
    · exact (gives_node block indentless (g.thenExpect e)).yields h

/-- The first entry of a sequence without indentation, and the key of a pair in a flow sequence: the
indicator was announced. -/
theorem Ready.afterIndicator (ends : TokenKind → Bool) (block indentless : Bool) (e : Expect)
    {t : Token} {rest : List Token} (h : Ready lo hi g) (htokens : g.tokens = t :: rest) :
    Yields lo hi ({ g with tokens := rest }.nodeUnless ends block indentless t.stop e) := by
  rcases h.head htokens with ⟨hlo, hrest⟩
  exact (yields_nodeUnless ends block indentless e hrest).mono hlo

/-- The next event stands after the last one, and the tokens to come stand after it. -/
theorem Ready.step (h : Ready lo hi g) : Yields lo hi g.step := by
  by_cases hannounced : g.Announced
  · -- An announced token is dropped, or is the first entry of a sequence without indentation.
    unfold Grammar.step
    cases hexpect : g.expect with
    | blockSequenceFirst => exact (gives_blockSequence g.opened).yields h.opened
    | blockMappingFirst => exact (gives_blockMappingKey g.opened).yields h.opened
    | flowSequenceFirst => exact (gives_flowItem g.opened).yields h.opened
    | flowMappingFirst => exact (gives_flowEntry g.opened).yields h.opened
    | indentlessSequence =>
      simp only [Announced, hexpect] at hannounced
      rcases hannounced with ⟨t, rest, htokens, hkind⟩
      simp only [indentlessSequence, htokens, hkind, beq_self_eq_true, if_true]
      exact h.afterIndicator _ _ _ _ htokens
    | flowPairKey =>
      cases htokens : g.tokens with
      | nil =>
        simp only [flowPairKey, htokens]
        exact Gives.exhausted.yields (inOrder_nil.2 h.le)
      | cons t rest =>
        simp only [flowPairKey, htokens]
        exact h.afterIndicator _ _ _ _ htokens
    | _ => simp [Announced, hexpect] at hannounced
  · exact (gives_step g).yields (h.inOrder hannounced)

end Grammar

namespace EventStream

open Grammar

namespace Run

variable {lo hi : Nat} {tokenHalt : Option Halt} {g : Grammar} {s : EventStream}

/-- The events of a run stand in order from where the last one stops. -/
theorem inOrder (hrun : Run tokenHalt g s) (h : Ready lo hi g) :
    InOrder Event.extent lo hi s.events := by
  -- On the steps; `lo` moves to where each event stops.
  induction hrun generalizing lo with
  | exhausted _ | fault _ => exact inOrder_nil.2 h.le
  | last _ hstep _ _ _ =>
    rcases h.step.event _ _ hstep with ⟨hstart, hstop, hnext⟩
    exact inOrder_cons.2 ⟨hstart, hstop, inOrder_nil.2 hnext.ready.le⟩
  | event _ hstep _ _ _ _ ih =>
    rcases h.step.event _ _ hstep with ⟨hstart, hstop, hnext⟩
    exact inOrder_cons.2 ⟨hstart, hstop, ih hnext.ready⟩

/-- A fault of the grammar is about a place behind the events before it. -/
theorem inOrder_of_fault {f : Fault} (hrun : Run tokenHalt g s) (h : Ready lo hi g)
    (hhalt : s.halt = some (.fault f)) :
    tokenHalt = some (.fault f) ∨ f.offset ≤ hi ∧ InOrder Event.extent lo f.offset s.events := by
  induction hrun generalizing lo with
  | exhausted _ => exact Or.inl hhalt
  | fault hstep =>
    cases hhalt
    rcases h.step.fault _ hstep with ⟨hlo, hhi⟩
    exact Or.inr ⟨hhi, inOrder_nil.2 hlo⟩
  | last => cases hhalt
  | event _ hstep _ _ _ _ ih =>
    rcases h.step.event _ _ hstep with ⟨hstart, hstop, hnext⟩
    refine (ih hnext.ready hhalt).imp_right ?_
    rintro ⟨hhi, hevents⟩
    exact ⟨hhi, inOrder_cons.2 ⟨hstart, hstop, hevents⟩⟩

end Run

theorem inOrder_ofTokens {lo hi : Nat} {s : TokenStream}
    (h : InOrder Token.extent lo hi s.tokens) :
    InOrder Event.extent lo hi (ofTokens s).events :=
  (run_ofTokens s).inOrder (Or.inl (h.sublist (List.drop_sublist 1 s.tokens)))

/-- The fault by which the events stop is that of the tokens, or is about a place among them behind
the events. -/
theorem inOrder_of_fault {lo hi : Nat} {s : TokenStream} {f : Fault}
    (h : InOrder Token.extent lo hi s.tokens) (hhalt : (ofTokens s).halt = some (.fault f)) :
    s.halt = some (.fault f) ∨
      f.offset ≤ hi ∧ InOrder Event.extent lo f.offset (ofTokens s).events :=
  (run_ofTokens s).inOrder_of_fault (Or.inl (h.sublist (List.drop_sublist 1 s.tokens))) hhalt

end EventStream
end Yaml
end YamlServer
