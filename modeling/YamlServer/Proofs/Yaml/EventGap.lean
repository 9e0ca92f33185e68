import YamlServer.Proofs.Yaml.EventOrder
import YamlServer.Proofs.Yaml.TokenWidth

/-!
# Events with something written between them

Events stand in order, but one may start where the one before it stops. Between two items of a
sequence that does not happen: a dash, a comma or a bracket is written there. A block mapping has no
such mark between its entries, and a key may start where the value before it stops. Then the key
itself is written, so that the values stay apart.

* `EventStream.spread_ofTokens`: the events of written tokens are spread.
-/

namespace YamlServer
namespace Yaml

/-- What follows an event is written after its end, or after the start of a collection it opens. -/
def Event.floor (e : Event) : Nat :=
  if e.kind.opensCollection then e.start.index else e.stop.index

/-- How far the next event is from `floor`, by what is due. -/
def Gap : List Frame → Nat → Event → Prop
  | .items :: _, floor, e => e.kind ≠ .sequenceEnd → floor < e.start.index
  | .entries :: _, floor, e => e.kind ≠ .mappingEnd → floor < e.stop.index
  | _, _, _ => True

/-- Events that pass what is due one after the other, with gaps between them. -/
def Spread : List Frame → Nat → List Event → Prop
  | _, _, [] => True
  | due, floor, e :: rest =>
    Gap due floor e ∧ (rest = [] ∨ ∃ due', e.kind.pass due = some due' ∧ Spread due' e.floor rest)

namespace Spread

variable {floor : Nat} {due due' inner : List Frame} {e : Event} {rest : List Event}

/-- What an event can pass says how the others are spread. -/
theorem of_passes (h : Spread due floor (e :: rest))
    (hpass : ∀ d, e.kind.pass due = some d → d = due') : Spread due' e.floor rest := by
  rcases h.2 with rfl | ⟨d, hd, hrest⟩
  · trivial
  · rw [← hpass d hd]
    exact hrest

theorem of_pass (h : Spread due floor (e :: rest)) (hpass : e.kind.pass due = some due') :
    Spread due' e.floor rest :=
  h.of_passes fun _ hd => Option.some.inj (hd.symm.trans hpass)

theorem node (h : Spread (.node :: due) floor (e :: rest)) (he : e.kind.opening = some inner) :
    Spread (inner ++ due) e.floor rest := by
  refine h.of_pass ?_
  rw [EventKind.pass, he]
  rfl

/-- Between documents only the start of one is passed. -/
theorem document (h : Spread (.stream :: due) floor (e :: rest)) :
    Spread (.node :: .documentEnd :: .stream :: due) e.floor rest := by
  refine h.of_passes fun d hd => ?_
  rw [EventKind.pass] at hd
  split at hd
  · exact (Option.some.inj hd).symm
  · cases hd

theorem documentEnd (h : Spread (.documentEnd :: due) floor (e :: rest)) :
    Spread due e.floor rest := by
  refine h.of_passes fun d hd => ?_
  rw [EventKind.pass] at hd
  split at hd
  · exact (Option.some.inj hd).symm
  · cases hd

theorem itemsEnd (h : Spread (.items :: due) floor (e :: rest)) (he : e.kind = .sequenceEnd) :
    Spread due e.floor rest :=
  h.of_pass (by rw [EventKind.pass, if_pos he])

theorem entriesEnd (h : Spread (.entries :: due) floor (e :: rest)) (he : e.kind = .mappingEnd) :
    Spread due e.floor rest :=
  h.of_pass (by rw [EventKind.pass, if_pos he])

/-- What is no end of a sequence is an item, and starts after the floor. -/
theorem item (h : Spread (.items :: due) floor (e :: rest)) (he : e.kind ≠ .sequenceEnd) :
    floor < e.start.index ∧ Spread (.node :: .items :: due) floor (e :: rest) := by
  rcases h with ⟨hgap, hpass⟩
  rw [EventKind.pass, if_neg he] at hpass
  exact ⟨hgap he, trivial, hpass⟩

/-- What is no end of a mapping is the start of a key, and stops after the floor. -/
theorem key (h : Spread (.entries :: due) floor (e :: rest)) (he : e.kind ≠ .mappingEnd) :
    floor < e.stop.index ∧ Spread (.node :: .node :: .entries :: due) floor (e :: rest) := by
  rcases h with ⟨hgap, hpass⟩
  rw [EventKind.pass, if_neg he] at hpass
  exact ⟨hgap he, trivial, hpass⟩

end Spread

namespace Grammar

variable {floor lo hi : Nat} {due : List Frame} {g : Grammar}

/-- The tokens after an event stand after its floor, the one it announced as well. -/
theorem Since.inOrder {e : Event} (h : Since e hi g) (he : e.start.index ≤ e.stop.index) :
    InOrder Token.extent e.floor hi g.tokens := by
  rw [Event.floor]
  rcases h with h | ⟨hopens, -, t, rest, htokens, hstart, hwidth, -, hrest⟩
  · split
    · exact h.mono he (Nat.le_refl hi)
    · exact h
  · rw [if_pos hopens, htokens, inOrder_cons]
    exact ⟨hstart, hwidth, hrest⟩

/-- If a step gives an event, it has a gap to `floor`. -/
def Spaces (due : List Frame) (floor : Nat) (o : Outcome) : Prop :=
  ∀ e next, o = .event e next → Gap due floor e

theorem spaces_event {e : Event} {next : Grammar} (h : Gap due floor e) :
    Spaces due floor (.event e next) := by
  intro e' next' heq
  cases heq
  exact h

theorem spaces_exhausted : Spaces due floor .exhausted := by
  intro e next heq
  cases heq

theorem spaces_complain (p : GrammarProblem) (t : Token) : Spaces due floor (complain p t) := by
  intro e next heq
  cases heq

/-- An event that starts after the floor has every gap. -/
theorem Yields.spaces {o : Outcome} (h : Yields lo hi o) (hlo : floor < lo) (due : List Frame) :
    Spaces due floor o := by
  intro e next heq
  rcases h.event e next heq with ⟨hstart, hstop, -⟩
  have hfloor : floor < e.start.index := Nat.lt_of_lt_of_le hlo hstart
  unfold Gap
  split
  · exact fun _ => hfloor
  · exact fun _ => Nat.lt_of_lt_of_le hfloor hstop
  · trivial

/-! ## Keys -/

/-- The content of a node stops after what its properties and its tokens stand after. -/
theorem Content.le_stop {raw : RawProperties} {left : List Token} {e : Event} {next : Grammar}
    (h : Content raw left (.event e next)) (hleft : InOrder Token.extent lo hi left)
    (hraw : ∀ m, raw.stop = some m → lo ≤ m.index) : lo ≤ e.stop.index := by
  cases h with
  | reads _ =>
    have hcons := inOrder_cons.1 hleft
    exact Nat.le_trans hcons.1 hcons.2.1
  | opens _ _ _ =>
    have hcons := inOrder_cons.1 hleft
    exact Nat.le_trans hcons.1 hcons.2.1
  | opensBefore _ _ => exact (inOrder_cons.1 hleft).1
  | omits _ _ =>
    cases hstop : raw.stop with
    | none => exact (inOrder_cons.1 hleft).1
    | some m => exact hraw m hstop

/-- So does a node, and if there are no properties, it stops after its first token. -/
theorem Content.stop_of_part {raw : RawProperties} {t : Token} {rest left : List Token} {e : Event}
    {next : Grammar} (h : Content raw left (.event e next)) (hraw : Fronts (t :: rest) raw left)
    (hpart : t.kind.isPart = true) (horder : InOrder Token.extent lo hi (t :: rest)) :
    t.stop.index ≤ e.stop.index := by
  have hcons := inOrder_cons.1 horder
  cases hraw with
  | none hstart =>
    cases h with
    | reads _ => exact Nat.le_refl _
    | opens _ _ _ => exact Nat.le_refl _
    | opensBefore _ hnot =>
      rw [hpart] at hnot
      cases hnot
    | omits hsome _ =>
      rw [hstart] at hsome
      cases hsome
  | one _ hstop =>
    refine h.le_stop hcons.2.2 fun m hm => ?_
    cases hstop.symm.trans hm
    exact Nat.le_refl _
  | two _ hstop =>
    have hinner := inOrder_cons.1 hcons.2.2
    have hle := Nat.le_trans hinner.1 hinner.2.1
    refine h.le_stop (hinner.2.2.mono hle (Nat.le_refl hi)) fun m hm => ?_
    cases hstop.symm.trans hm
    exact hle

/-- The event of a node that starts with a part stops after that part. -/
theorem stop_of_node {block indentless : Bool} {t : Token} {rest : List Token}
    (htokens : g.tokens = t :: rest) (hpart : t.kind.isPart = true)
    (h : InOrder Token.extent lo hi g.tokens) {e : Event} {next : Grammar}
    (hevent : g.node block indentless = .event e next) : t.stop.index ≤ e.stop.index := by
  unfold node at hevent
  split at hevent
  · cases hevent
  · rename_i htokens'
    rw [htokens] at htokens'
    cases htokens'
    cases hevent
    exact Nat.le_refl _
  · dsimp only at hevent
    split at hevent
    · cases hevent
    · split at hevent
      · cases hevent
      · have hfronts := fronts_splitProperties g.tokens
        have hcontent := hevent ▸ content_nodeContent block indentless _ _ _
        rw [htokens] at h
        generalize splitProperties g.tokens = split at hfronts hcontent
        rw [htokens] at hfronts
        exact Content.stop_of_part hcontent hfronts hpart h

/-- A key token is written, or what comes after it is. -/
theorem lt_stop_of_key {ends : TokenKind → Bool} {block indentless : Bool} {e : Expect} {t : Token}
    {rest : List Token} (hkind : t.kind = .key) (hends : ∀ k, ends k = true → k.isPart = false)
    (hwritten : Written (t :: rest)) (h : InOrder Token.extent floor hi (t :: rest)) :
    ∀ ev next,
      { g with tokens := rest }.nodeUnless ends block indentless t.stop e = .event ev next →
        floor < ev.stop.index := by
  intro ev next hevent
  have hcons := inOrder_cons.1 h
  simp only [Token.extent] at hcons
  -- A key that was put in front of an earlier token is empty, and only then that token counts.
  by_cases hwide : t.Wide
  · rcases (yields_nodeUnless ends block indentless e hcons.2.2).event ev next hevent with
      ⟨hstart, hstop, -⟩
    rw [Token.Wide] at hwide
    omega
  · unfold nodeUnless at hevent
    split at hevent
    · cases hevent
    · rename_i u after htokens
      cases htokens
      have hpart : u.kind.isPart = true :=
        ((List.isChain_cons_cons.1 hwritten.chain).1 hkind).resolve_left hwide
      have hu : u.Wide := by
        refine hwritten.wide u (List.mem_cons_of_mem _ List.mem_cons_self) ?_
        exact TokenKind.isVirtual_of_isPart hpart
      have hinner := inOrder_cons.1 hcons.2.2
      simp only [Token.extent] at hinner
      rw [Token.Wide] at hu
      split at hevent
      · rename_i hend
        rw [hends _ hend] at hpart
        cases hpart
      · have hstop := stop_of_node (g := thenExpect e { g with tokens := u :: after }) rfl hpart
          hcons.2.2 hevent
        omega

/-! ## Steps -/

/-- An indicator is written, so that the node after it starts after the floor. -/
theorem spaces_afterIndicator (ends : TokenKind → Bool) (block indentless : Bool) (e : Expect)
    {t : Token} {rest : List Token} (hwide : t.Wide)
    (h : InOrder Token.extent floor hi (t :: rest)) :
    Spaces due floor ({ g with tokens := rest }.nodeUnless ends block indentless t.stop e) := by
  have hcons := inOrder_cons.1 h
  exact (yields_nodeUnless ends block indentless e hcons.2.2).spaces
    (Nat.lt_of_le_of_lt hcons.1 hwide) due

theorem spaces_blockSequence (hwritten : Written g.tokens)
    (h : InOrder Token.extent floor hi g.tokens) :
    Spaces (.items :: due) floor g.blockSequence := by
  unfold blockSequence
  split
  · exact spaces_exhausted
  · rename_i t rest htokens
    rw [htokens] at h hwritten
    dsimp only
    split
    · rename_i hkind
      exact spaces_afterIndicator _ _ _ _ (hwritten.wide_head (beq_iff_eq.1 hkind) rfl) h
    · split
      · exact spaces_event fun hne => absurd rfl hne
      · exact spaces_complain _ _

theorem spaces_indentlessSequence (hwritten : Written g.tokens)
    (h : InOrder Token.extent floor hi g.tokens) :
    Spaces (.items :: due) floor g.indentlessSequence := by
  unfold indentlessSequence
  split
  · exact spaces_exhausted
  · rename_i t rest htokens
    rw [htokens] at h hwritten
    split
    · rename_i hkind
      exact spaces_afterIndicator _ _ _ _ (hwritten.wide_head (beq_iff_eq.1 hkind) rfl) h
    · exact spaces_event fun hne => absurd rfl hne

theorem isPart_of_endsBlockPart (k : TokenKind) (h : endsBlockPart k = true) :
    k.isPart = false := by
  simp only [endsBlockPart, Bool.or_eq_true, beq_iff_eq] at h
  rcases h with (rfl | rfl) | rfl <;> rfl

theorem isPart_of_endsFlowPairKey (k : TokenKind) (h : endsFlowPairKey k = true) :
    k.isPart = false := by
  simp only [endsFlowPairKey, endsFlowItem, Bool.or_eq_true, beq_iff_eq] at h
  rcases h with rfl | rfl | rfl <;> rfl

theorem spaces_blockMappingKey (hwritten : Written g.tokens)
    (h : InOrder Token.extent floor hi g.tokens) :
    Spaces (.entries :: due) floor g.blockMappingKey := by
  unfold blockMappingKey
  split
  · exact spaces_exhausted
  · rename_i t rest htokens
    rw [htokens] at h hwritten
    dsimp only
    split
    · rename_i hkind
      intro e next hevent _
      exact lt_stop_of_key (beq_iff_eq.1 hkind) isPart_of_endsBlockPart hwritten h e next hevent
    · split
      · exact spaces_event fun hne => absurd rfl hne
      · exact spaces_complain _ _

/-- The key token of a pair in a flow sequence is dropped with the key. -/
theorem spaces_flowPairKey {t : Token} {rest : List Token}
    (htokens : g.tokens = t :: rest) (hkind : t.kind = .key) (hwritten : Written g.tokens)
    (h : InOrder Token.extent floor hi g.tokens) :
    Spaces (.entries :: due) floor g.flowPairKey := by
  rw [htokens] at h hwritten
  rw [flowPairKey, htokens]
  intro e next hevent _
  exact lt_stop_of_key hkind isPart_of_endsFlowPairKey hwritten h e next hevent

theorem spaces_flowSequence (hwritten : Written g.tokens)
    (h : InOrder Token.extent floor hi g.tokens) : Spaces (.items :: due) floor g.flowSequence := by
  unfold flowSequence
  split
  · exact spaces_exhausted
  · rename_i t rest htokens
    split
    · rename_i hkind
      rw [flowItem_end htokens (beq_iff_eq.1 hkind)]
      exact spaces_event fun hne => absurd rfl hne
    · split
      · rename_i hkind
        rw [htokens] at h hwritten
        have hcons := inOrder_cons.1 h
        refine ((gives_flowItem _).yields hcons.2.2).spaces (Nat.lt_of_le_of_lt hcons.1 ?_) _
        exact hwritten.wide_head (beq_iff_eq.1 hkind) rfl
      · exact spaces_complain _ _

theorem spaces_flowMappingKey (hwritten : Written g.tokens)
    (h : InOrder Token.extent floor hi g.tokens) :
    Spaces (.entries :: due) floor g.flowMappingKey := by
  unfold flowMappingKey
  split
  · exact spaces_exhausted
  · rename_i t rest htokens
    split
    · rename_i hkind
      rw [flowEntry_end htokens (beq_iff_eq.1 hkind)]
      exact spaces_event fun hne => absurd rfl hne
    · split
      · rename_i hkind
        rw [htokens] at h hwritten
        have hcons := inOrder_cons.1 h
        refine ((gives_flowEntry _).yields hcons.2.2).spaces (Nat.lt_of_le_of_lt hcons.1 ?_) _
        exact hwritten.wide_head (beq_iff_eq.1 hkind) rfl
      · exact spaces_complain _ _

theorem spaces_flowPairEnd : Spaces (.entries :: due) floor g.flowPairEnd := by
  unfold flowPairEnd
  split
  · exact spaces_exhausted
  · exact spaces_event fun hne => absurd rfl hne

/-- What is left when the token that opens a collection is dropped. That token is written if it is a
bracket. -/
theorem Primed.inOrder_opened (hprimed : g.Primed) {k : TokenKind} (hk : g.expect.dropped? = some k)
    (hwritten : Written g.tokens) (h : InOrder Token.extent floor hi g.tokens) :
    ∃ lo, floor ≤ lo ∧ (k.isVirtual = false → floor < lo) ∧
      InOrder Token.extent lo hi g.opened.tokens ∧ Written g.opened.tokens := by
  rcases hprimed.head k hk with ⟨t, rest, htokens, hkind⟩
  rw [htokens] at h hwritten
  have hcons := inOrder_cons.1 h
  rw [Grammar.opened, htokens]
  refine ⟨t.stop.index, Nat.le_trans hcons.1 hcons.2.1, ?_, hcons.2.2, hwritten.tail⟩
  exact fun hvirtual => Nat.lt_of_le_of_lt hcons.1 (hwritten.wide_head hkind hvirtual)

/-- Where no item and no entry is due, no gap is asked for. -/
theorem spaces_free {f : Frame} {o : Outcome} (hitems : f ≠ .items) (hentries : f ≠ .entries) :
    Spaces (f :: due) floor o := by
  intro e next _
  cases f with
  | items => exact absurd rfl hitems
  | entries => exact absurd rfl hentries
  | node => trivial
  | documentEnd => trivial
  | stream => trivial

/-- Every event of written tokens has the gap that what is due asks for. -/
theorem spaces_step (hprimed : g.Primed) (hwritten : Written g.tokens)
    (h : InOrder Token.extent floor hi g.tokens) : Spaces g.due floor g.step := by
  have hopened := fun k (hk : g.expect.dropped? = some k) => hprimed.inOrder_opened hk hwritten h
  unfold step
  rw [due]
  cases hexpect : g.expect with
  | blockSequenceFirst =>
    rcases hopened _ (congrArg Expect.dropped? hexpect) with ⟨lo, hlo, -, hrest, hleft⟩
    exact spaces_blockSequence hleft (hrest.mono hlo (Nat.le_refl hi))
  | blockSequence => exact spaces_blockSequence hwritten h
  | indentlessSequence => exact spaces_indentlessSequence hwritten h
  | blockMappingFirst =>
    rcases hopened _ (congrArg Expect.dropped? hexpect) with ⟨lo, hlo, -, hrest, hleft⟩
    exact spaces_blockMappingKey hleft (hrest.mono hlo (Nat.le_refl hi))
  | blockMappingKey => exact spaces_blockMappingKey hwritten h
  | flowSequenceFirst =>
    rcases hopened _ (congrArg Expect.dropped? hexpect) with ⟨lo, -, hlo, hrest, -⟩
    exact ((gives_flowItem _).yields hrest).spaces (hlo rfl) _
  | flowSequence => exact spaces_flowSequence hwritten h
  | flowPairKey =>
    rcases hprimed.head _ (congrArg Expect.dropped? hexpect) with ⟨t, rest, htokens, hkind⟩
    exact spaces_flowPairKey htokens hkind hwritten h
  | flowPairEnd => exact spaces_flowPairEnd
  | flowMappingFirst =>
    rcases hopened _ (congrArg Expect.dropped? hexpect) with ⟨lo, -, hlo, hrest, -⟩
    exact ((gives_flowEntry _).yields hrest).spaces (hlo rfl) _
  | flowMappingKey => exact spaces_flowMappingKey hwritten h
  -- Elsewhere a node, the end of a document or a document is due.
  | _ => exact spaces_free (by decide) (by decide)

end Grammar

namespace EventStream

open Grammar

theorem Run.spread {floor lo hi : Nat} {tokenHalt : Option Halt} {g : Grammar} {s : EventStream}
    (hrun : Run tokenHalt g s) (hwritten : Written g.tokens) (hready : Ready lo hi g)
    (h : InOrder Token.extent floor hi g.tokens) : Spread g.due floor s.events := by
  -- On the steps: what is left after an event is still written, and stands after its floor.
  induction hrun generalizing floor lo with
  | exhausted _ | fault _ => exact trivial
  | last hg hstep _ _ _ => exact ⟨spaces_step hg.primed hwritten h _ _ hstep, Or.inl rfl⟩
  | event hg hstep _ hfit hpass _ ih =>
    rcases hready.step.event _ _ hstep with ⟨-, he, hsince⟩
    refine ⟨spaces_step hg.primed hwritten h _ _ hstep, Or.inr ⟨_, hpass, ?_⟩⟩
    exact ih (hwritten.suffix hfit.left.suffix) hsince.ready (hsince.inOrder he)

/-- The events of written tokens are spread. -/
theorem spread_ofTokens {lo hi : Nat} {s : TokenStream} (hwritten : Written s.tokens)
    (h : InOrder Token.extent lo hi s.tokens) : Spread [.stream] lo (ofTokens s).events := by
  have hdrop := h.sublist (List.drop_sublist 1 s.tokens)
  exact (run_ofTokens s).spread (hwritten.suffix (List.drop_suffix 1 s.tokens)) (Or.inl hdrop) hdrop

end EventStream
end Yaml
end YamlServer
