import YamlServer.Proofs.Yaml.Anchors
import YamlServer.Proofs.Yaml.Brackets
import YamlServer.Proofs.Yaml.NodeOrder
import YamlServer.Proofs.Yaml.TokenMark

/-!
# The marks of events and nodes

An event stops where a token starts or stops. A node stops with one of its events, and a document
with the event that ends it, which stands before the next token or behind the dots that end a
document. So the marks of nodes are marks of the text, and no document stops at a `#`.

* `EventStream.marked_ofChars`: the events of a text are marked.
* `Composed.Marked`: a document whose nodes stop at marks of the text, and that does not stop at a
  `#`.
* `Composed.marked_ofChars`: the documents of a text are marked.
-/

namespace YamlServer
namespace Yaml

namespace Grammar

variable {g : Grammar}

/-- A document ends only where its end is due. -/
theorem expect_of_documentEnd {due : List Frame}
    (h : EventKind.documentEnd.pass g.due = some due) : g.expect = .documentEnd := by
  unfold Grammar.due at h
  cases hexpect : g.expect with
  | documentEnd => rfl
  | _ =>
    rw [hexpect] at h
    cases h

/-- A document ends where the next token starts, or behind a token that says so. -/
theorem stop_of_documentEnd (hlast : g.due.getLast? = some .stream) (hprimed : g.Primed) {e : Event}
    {next : Grammar} (hstep : g.step = .event e next) (hkind : e.kind = .documentEnd) :
    ∃ t ∈ g.tokens, e.stop = t.start ∨ t.kind = .documentEnd ∧ e.stop = t.stop := by
  -- The end of a document is no event of any other expectation.
  have hexpect : g.expect = .documentEnd := by
    rcases (passes_step hlast hprimed).event e next hstep with ⟨hend, -⟩ | ⟨-, hpass⟩
    · cases hkind.symm.trans hend
    · rw [hkind] at hpass
      exact expect_of_documentEnd hpass
  unfold step at hstep
  rw [hexpect] at hstep
  dsimp only at hstep
  unfold documentEnd at hstep
  split at hstep
  · cases hstep
  · rename_i t rest htokens
    refine ⟨t, by rw [htokens]; exact List.mem_cons_self, ?_⟩
    split at hstep
    · rename_i hdots
      cases hstep
      exact Or.inr ⟨beq_iff_eq.1 hdots, rfl⟩
    · cases hstep
      exact Or.inl rfl

end Grammar

structure Event.Marked (cs : List Char) (e : Event) : Prop where
  stop : e.stop.IsOf cs
  ended : e.kind = .documentEnd → e.stop.Bare cs

namespace EventStream

open Grammar

theorem marked_step {cs : List Char} {g : Grammar} (hlast : g.due.getLast? = some .stream)
    (hprimed : g.Primed) (h : ∀ t ∈ g.tokens, t.Marked cs) {e : Event} {next : Grammar}
    (hstep : g.step = .event e next) : e.Marked cs := by
  refine ⟨?_, ?_⟩
  · rcases (hstep ▸ gives_step g).exists_stop with ⟨t, ht, hstop | hstop⟩
    · rw [hstop]
      exact (h t ht).start.1
    · rw [hstop]
      exact (h t ht).stop
  intro hkind
  rcases stop_of_documentEnd hlast hprimed hstep hkind with ⟨t, ht, hstop | ⟨hdots, hstop⟩⟩
  · rw [hstop]
    exact (h t ht).start
  · rw [hstop]
    exact (h t ht).ended hdots

theorem Run.marked {cs : List Char} {tokenHalt : Option Halt} {g : Grammar} {s : EventStream}
    (hrun : Run tokenHalt g s) (h : ∀ t ∈ g.tokens, t.Marked cs) : ∀ e ∈ s.events, e.Marked cs := by
  -- On the steps: the tokens that an event leaves are marked as well.
  induction hrun with
  | exhausted _ | fault _ => exact List.forall_mem_nil _
  | last hg hstep _ _ _ => exact List.forall_mem_singleton.2 (marked_step hg.last hg.primed h hstep)
  | event hg hstep _ hfit _ _ ih =>
    refine List.forall_mem_cons.2 ⟨marked_step hg.last hg.primed h hstep, ?_⟩
    exact ih fun t ht => h t (hfit.left.sublist.subset ht)

theorem marked_ofChars (cs : List Char) :
    ∀ e ∈ (ofTokens (TokenStream.ofChars cs)).events, e.Marked cs :=
  (run_ofTokens _).marked (TokenStream.marked_ofChars cs)

end EventStream

/-! ## Nodes -/

namespace NodeReader

/-- Nodes stop where events do, and the events left are some of them. -/
theorem Assembles.stops {P : Mark → Prop} {c after : NodeReader} {p : Piece}
    (h : Assembles c p after) (hevents : ∀ e ∈ c.events, P e.stop) :
    (∀ n ∈ p.walk, P n.span.stop) ∧ P p.stop ∧ ∀ e ∈ after.events, P e.stop := by
  induction h with
  | «alias» | scalar =>
    rcases List.forall_mem_cons.1 hevents with ⟨hstop, hrest⟩
    exact ⟨List.forall_mem_singleton.2 hstop, hstop, hrest⟩
  | sequence _ _ ih | mapping _ _ ih =>
    rcases ih (List.forall_mem_cons.1 hevents).2 with ⟨hnodes, hstop, hrest⟩
    exact ⟨List.forall_mem_cons.2 ⟨hstop, hnodes⟩, hstop, hrest⟩
  | noItem | noEntry => exact ⟨nofun, List.forall_mem_cons.1 hevents⟩
  | item _ _ hitem hmore =>
    rcases hitem hevents with ⟨hfirst, -, hrest⟩
    rcases hmore hrest with ⟨hothers, hstop⟩
    exact ⟨List.forall_mem_append.2 ⟨hfirst, hothers⟩, hstop⟩
  | entry _ _ _ hkey hvalue hmore =>
    rcases hkey hevents with ⟨hfirst, -, hrest⟩
    rcases hvalue hrest with ⟨hsecond, -, hrest'⟩
    rcases hmore hrest' with ⟨hothers, hstop⟩
    have hsides := List.forall_mem_append.2 ⟨hfirst, hsecond⟩
    exact ⟨List.forall_mem_append.2 ⟨hsides, hothers⟩, hstop⟩

end NodeReader

/-! ## Documents -/

namespace Composed

/-- A document whose nodes stop at marks of the text, and that does not stop at a `#`. -/
structure Marked (cs : List Char) (c : Composed) : Prop where
  nodes : ∀ n, c.root = some n → ∀ m ∈ n.walk, m.span.stop.IsOf cs
  stop : cs[c.stop]? ≠ some '#'

/-- The events between documents, with their marks. -/
def Due (cs : List Char) (events : List Event) : Prop :=
  Bracketed [.stream] events ∧ ∀ e ∈ events, e.Marked cs

/-- Behind the root of a document stands the event that ends it, and the next document may come. -/
theorem due_next {cs : List Char} {e stop : Event} {rest more : List Event} {n : Node}
    {after : NodeReader} (h : Due cs (e :: rest)) (hkind : e.kind ≠ .streamEnd)
    (hroot : NodeReader.root rest = .ok (n, after)) (hafter : after.events = stop :: more) :
    stop.kind = .documentEnd ∧ stop.Marked cs ∧ Due cs more := by
  rcases h with ⟨hbracketed, hmarked⟩
  rcases hbracketed.stream with ⟨hend, -⟩ | ⟨-, hinner⟩
  · exact absurd hend hkind
  · have hmeets := NodeReader.root_meets hinner
    rw [hroot] at hmeets
    rcases hmeets with ⟨-, hleft, hsuffix⟩
    dsimp only at hleft hsuffix
    rw [hafter] at hleft hsuffix
    rcases hleft.documentEnd with ⟨hstop, hmore⟩
    have hothers := List.forall_mem_cons.1 fun e' he' =>
      hmarked e' (List.mem_cons_of_mem _ (hsuffix.subset he'))
    exact ⟨hstop, hothers.1, hmore, hothers.2⟩

theorem marked_of_readFrom {cs : List Char} {c : Composed} (h : ReadFrom (Due cs) cs.length c) :
    c.Marked cs := by
  -- Nothing stands at the end of the text.
  have hend : cs[cs.length]? ≠ some '#' := by
    rw [List.getElem?_eq_none (Nat.le_refl _)]
    exact (Option.some_ne_none _).symm
  cases h with
  | rootless => exact ⟨nofun, hend⟩
  | rooted hdue hkind hroot hstop =>
    refine ⟨?_, ?_⟩
    · rintro n ⟨⟩
      exact ((NodeReader.assembles_root hroot).stops fun e he =>
        (hdue.2 e (List.mem_cons_of_mem _ he)).stop).1
    · rcases hstop with rfl | ⟨last, more, hafter, rfl⟩
      · exact hend
      · rcases due_next hdue hkind hroot hafter with ⟨hlast, hmarked, -⟩
        exact (hmarked.ended hlast).2

theorem marked_ofChars (cs : List Char) :
    ∀ c ∈ ofEvents cs.length (EventStream.ofTokens (TokenStream.ofChars cs)), c.Marked cs :=
  fun _ hc => marked_of_readFrom (readFrom_of_mem
    ⟨EventStream.bracketed_ofTokens _, EventStream.marked_ofChars cs⟩
    (fun _ _ _ _ _ _ hdue hkind hroot hafter => (due_next hdue hkind hroot hafter).2.2) hc)

end Composed
end Yaml
end YamlServer
