import YamlServer.Proofs.Yaml.GrammarStep

/-!
# The events of a text are well bracketed

A run takes steps until one gives no event, or the event that ends the stream. There are always
enough steps for that, since each of them leaves less to do. So what holds of all the events of a
text is proved along its run, without a count of steps.

* `EventStream.bracketed_ofTokens`: every event stream is well bracketed.
* `EventStream.complete_ofTokens`: events that nothing stops come to the end of the stream.
-/

namespace YamlServer
namespace Yaml

open Grammar

/-- A state to which steps lead. -/
structure Grammar.Underway (g : Grammar) : Prop where
  last : g.due.getLast? = some .stream
  primed : g.Primed

namespace EventStream

/-! ## Runs -/

/-- A stream as the steps from a state on give it. -/
inductive Run (tokenHalt : Option Halt) : Grammar → EventStream → Prop
  | exhausted {g : Grammar} (hopen : ∀ t ∈ g.tokens, t.kind ≠ .streamEnd) :
      Run tokenHalt g ⟨[], tokenHalt⟩
  | fault {g : Grammar} {f : Fault} (hstep : g.step = .fault f) :
      Run tokenHalt g ⟨[], some (.fault f)⟩
  | last {g next : Grammar} {e : Event} (hg : g.Underway) (hstep : g.step = .event e next)
      (hkind : e.kind = .streamEnd) (htoken : ∃ t ∈ g.tokens, t.kind = .streamEnd)
      (hdue : ∃ more, g.due = .stream :: more) : Run tokenHalt g ⟨[e], none⟩
  | event {g next : Grammar} {e : Event} {s : EventStream} (hg : g.Underway)
      (hstep : g.step = .event e next) (hkind : e.kind ≠ .streamEnd)
      (hfit : Fit g.tokens g.work next) (hpass : e.kind.pass g.due = some next.due)
      (hrest : Run tokenHalt next s) : Run tokenHalt g ⟨e :: s.events, s.halt⟩

theorem run_runFrom {tokenHalt : Option Halt} {fuel : Nat} {g : Grammar} (hfuel : g.work < fuel)
    (hg : g.Underway) : Run tokenHalt g (runFrom tokenHalt fuel g) := by
  -- On the steps, of which there are always more than there is work.
  induction fuel generalizing g with
  | zero => exact absurd hfuel (Nat.not_lt_zero _)
  | succ fuel ih =>
    have hpasses := passes_step hg.last hg.primed
    rw [runFrom]
    split
    · rename_i hstep
      exact .exhausted (hpasses.exhausted hstep)
    · rename_i hstep
      exact .fault hstep
    · rename_i e next hstep
      split
      · rename_i hend
        have hkind := beq_iff_eq.1 hend
        rcases hpasses.event e next hstep with ⟨-, htoken, hdue⟩ | ⟨-, hpass⟩
        · exact .last hg hstep hkind htoken hdue
        · rw [hkind, EventKind.pass_streamEnd] at hpass
          cases hpass
      · rename_i hend
        rcases hpasses.event e next hstep with ⟨hkind, -, -⟩ | ⟨hfit, hpass⟩
        · exact absurd (beq_iff_eq.2 hkind) hend
        · have hless := hfit.work
          have hnext : next.Underway := ⟨EventKind.pass_getLast? hpass hg.last, hfit.primed⟩
          exact .event hg hstep (mt beq_iff_eq.2 hend) hfit hpass (ih (by omega) hnext)

/-- The stream of a text is a run from the start. -/
theorem run_ofTokens (s : TokenStream) : Run s.halt (Grammar.ofTokens s.tokens) (ofTokens s) := by
  refine run_runFrom ?_ ⟨rfl, (fun _ hk => nomatch hk), fun _ he => nomatch he⟩
  have hwork : (Grammar.ofTokens s.tokens).work = 4 * (s.tokens.drop 1).length + 0 + 4 := rfl
  rw [hwork, steps, List.length_drop]
  omega

/-- The tokens were read to the end of the stream. -/
def Complete (s : EventStream) : Prop :=
  ∃ e ∈ s.events, e.kind = .streamEnd

namespace Run

variable {tokenHalt : Option Halt} {g : Grammar} {s : EventStream}

/-- Each event passes what is due before it, and what it leaves is due after it. -/
theorem bracketed (h : Run tokenHalt g s) : Bracketed g.due s.events := by
  induction h with
  | exhausted _ | fault _ => exact trivial
  | last _ _ hkind _ hdue => exact Or.inl ⟨hkind, rfl, hdue⟩
  | event _ _ _ _ hpass _ ih => exact Or.inr ⟨_, hpass, ih⟩

/-- A stream that comes to its end was not stopped. -/
theorem halt_of_streamEnd (h : Run tokenHalt g s) {e : Event} (he : e ∈ s.events)
    (hkind : e.kind = .streamEnd) : s.halt = none := by
  induction h with
  | exhausted _ | fault _ => cases he
  | last => rfl
  | event _ _ hother _ _ _ ih =>
    rcases List.mem_cons.1 he with rfl | he
    · exact absurd hkind hother
    · exact ih he

/-- Events are stopped by what stopped the tokens, or by a fault. -/
theorem halt_cases (h : Run tokenHalt g s) {halt : Halt} (hhalt : s.halt = some halt) :
    tokenHalt = some halt ∨ ∃ f, halt = .fault f := by
  induction h with
  | exhausted _ => exact Or.inl hhalt
  | fault _ => exact Or.inr ⟨_, (Option.some.inj hhalt).symm⟩
  | last => cases hhalt
  | event _ _ _ _ _ _ ih => exact ih hhalt

/-- Without the end of the stream among the tokens no event ends it, so the run ends early. -/
theorem halt_isSome {halt : Halt} (h : Run (some halt) g s)
    (hopen : ∀ t ∈ g.tokens, t.kind ≠ .streamEnd) : s.halt.isSome := by
  induction h with
  | exhausted _ | fault _ => rfl
  | last _ _ _ htoken _ =>
    rcases htoken with ⟨t, ht, hkind⟩
    exact absurd hkind (hopen t ht)
  | event _ _ _ hfit _ _ ih => exact ih fun t ht => hopen t (hfit.left.sublist.subset ht)

/-- The end of the stream stays among the tokens until it is read. -/
theorem complete (h : Run tokenHalt g s) (hends : ∃ t ∈ g.tokens, t.kind = .streamEnd)
    (hhalt : s.halt = none) : s.Complete := by
  induction h with
  | exhausted hopen =>
    rcases hends with ⟨t, ht, hkind⟩
    exact absurd hkind (hopen t ht)
  | fault _ => cases hhalt
  | last _ _ hkind _ _ => exact ⟨_, List.mem_cons_self, hkind⟩
  | event _ _ _ hfit _ _ ih =>
    rcases hends with ⟨t, ht, hkind⟩
    rcases ih ⟨t, hfit.left.mem ht hkind, hkind⟩ hhalt with ⟨e, he, hend⟩
    exact ⟨e, List.mem_cons_of_mem _ he, hend⟩

end Run

/-! ## Streams -/

theorem bracketed_ofTokens (s : TokenStream) : Bracketed [.stream] (ofTokens s).events :=
  (run_ofTokens s).bracketed

/-- Tokens that were stopped and hold no end of the stream stop the events as well. -/
theorem halt_ofTokens_isSome {s : TokenStream} (hopen : ∀ t ∈ s.tokens, t.kind ≠ .streamEnd)
    (h : s.halt.isSome) : (ofTokens s).halt.isSome := by
  rcases Option.isSome_iff_exists.1 h with ⟨halt, hhalt⟩
  exact (hhalt ▸ run_ofTokens s).halt_isSome fun t ht => hopen t (List.mem_of_mem_drop ht)

/-- Events that nothing stops come to the end of the stream, if it is among the tokens. -/
theorem complete_ofTokens {s : TokenStream}
    (hends : ∃ t ∈ s.tokens.drop 1, t.kind = .streamEnd) (h : (ofTokens s).halt = none) :
    (ofTokens s).Complete :=
  (run_ofTokens s).complete hends h

end EventStream

end Yaml
end YamlServer
