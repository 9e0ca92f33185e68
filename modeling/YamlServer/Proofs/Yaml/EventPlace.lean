import YamlServer.Proofs.Yaml.GrammarStep
import YamlServer.Proofs.Yaml.TokenStep

/-!
# Where events stand among the tokens

An event starts and stops where tokens do, and what it leaves of the tokens comes after it. There is
one exception: the event that opens a flow collection stops after a token that is still to be read.
Such a token is announced, and the next step only drops it.

* `Grammar.gives_step`: every outcome stands somewhere among the tokens.
-/

namespace YamlServer
namespace Yaml

def EventKind.opensCollection : EventKind → Bool
  | .sequenceStart _ | .mappingStart _ => true
  | _ => false

namespace Grammar

/-- The event before this state may reach over the first token to come. -/
def Announced (g : Grammar) : Prop :=
  match g.expect with
  | .blockSequenceFirst | .blockMappingFirst | .flowSequenceFirst | .flowMappingFirst
  | .flowPairKey => True
  -- A sequence without indentation of its own is announced by its first entry.
  | .indentlessSequence => ∃ t rest, g.tokens = t :: rest ∧ t.kind = .blockEntry
  | _ => False

/-- The start or the stop of one of the tokens, and the tokens after it. -/
inductive Edge (tokens : List Token) : Mark → List Token → Prop
  | start {t : Token} {rest : List Token} (h : t :: rest <:+ tokens) :
      Edge tokens t.start (t :: rest)
  | stop {t : Token} {rest : List Token} (h : t :: rest <:+ tokens) : Edge tokens t.stop rest

/-- Where the outcome of a step stands. A fault is about an edge. An event reaches from one edge to
another, or stands at one, or reaches over a token that it announces. -/
inductive Gives (tokens : List Token) : Outcome → Prop
  | exhausted : Gives tokens .exhausted
  | fault {f : Fault} {m : Mark} {rest : List Token} (h : Edge tokens m rest)
      (hoffset : f.offset = m.index) : Gives tokens (.fault f)
  | spans {e : Event} {next : Grammar} {rest : List Token} (hstart : Edge tokens e.start rest)
      (hstop : Edge rest e.stop next.tokens) : Gives tokens (.event e next)
  | stands {e : Event} {next : Grammar} (hstart : Edge tokens e.start next.tokens)
      (hstop : e.stop = e.start) : Gives tokens (.event e next)
  | announces {e : Event} {next : Grammar} {t : Token} {rest after : List Token}
      (hopens : e.kind.opensCollection = true) (hannounced : next.Announced)
      (hstart : Edge tokens e.start rest) (hnext : t :: after <:+ rest)
      (htokens : next.tokens = t :: after) (hstop : e.stop = t.stop) : Gives tokens (.event e next)

/-- The properties in front of a node are no token, one or two. -/
inductive Fronts : List Token → RawProperties → List Token → Prop
  | none {tokens : List Token} {raw : RawProperties} (hstart : raw.start = none) :
      Fronts tokens raw tokens
  | one {t : Token} {rest : List Token} {raw : RawProperties} (hstart : raw.start = some t.start)
      (hstop : raw.stop = some t.stop) : Fronts (t :: rest) raw rest
  | two {t u : Token} {rest : List Token} {raw : RawProperties} (hstart : raw.start = some t.start)
      (hstop : raw.stop = some u.stop) : Fronts (t :: u :: rest) raw rest

/-- What the content of a node can be, after properties. It reads the first token, or opens a
collection with it or in front of it, or there is nothing but properties. -/
inductive Content (raw : RawProperties) : List Token → Outcome → Prop
  | exhausted : Content raw [] .exhausted
  | complain {t : Token} {rest : List Token} {p : GrammarProblem} :
      Content raw (t :: rest) (Grammar.complain p t)
  | reads {t : Token} {rest : List Token} {kind : EventKind} {next : Grammar}
      (hnext : next.tokens = rest) :
      Content raw (t :: rest) (.event ⟨kind, raw.start.getD t.start, t.stop⟩ next)
  | opens {t : Token} {rest : List Token} {kind : EventKind} {next : Grammar}
      (hnext : next.tokens = t :: rest) (hopens : kind.opensCollection = true)
      (hannounced : next.Announced) :
      Content raw (t :: rest) (.event ⟨kind, raw.start.getD t.start, t.stop⟩ next)
  | opensBefore {t : Token} {rest : List Token} {kind : EventKind} {next : Grammar}
      (hnext : next.tokens = t :: rest) (hpart : t.kind.isPart = false) :
      Content raw (t :: rest) (.event ⟨kind, raw.start.getD t.start, t.start⟩ next)
  | omits {t : Token} {rest : List Token} {kind : EventKind} {next : Grammar}
      (hsome : raw.start.isSome = true) (hnext : next.tokens = t :: rest) :
      Content raw (t :: rest) (.event ⟨kind, raw.start.getD t.start, raw.stop.getD t.start⟩ next)

variable {tokens rest : List Token} {t : Token} {m : Mark} {o : Outcome} {g : Grammar}

/-! ## Edges -/

theorem Edge.of_suffix {after : List Token} (h : Edge rest m after) (hsuffix : rest <:+ tokens) :
    Edge tokens m after := by
  cases h with
  | start h => exact .start (h.trans hsuffix)
  | stop h => exact .stop (h.trans hsuffix)

theorem Edge.of_mem (ht : t ∈ tokens) : ∃ after, Edge tokens t.start after := by
  rcases List.append_of_mem ht with ⟨before, after, rfl⟩
  exact ⟨_, .start (List.suffix_append _ _)⟩

theorem Edge.exists_mem {after : List Token} (h : Edge tokens m after) :
    ∃ t ∈ tokens, m = t.start ∨ m = t.stop := by
  cases h with
  | start h => exact ⟨_, h.subset List.mem_cons_self, Or.inl rfl⟩
  | stop h => exact ⟨_, h.subset List.mem_cons_self, Or.inr rfl⟩

theorem Edge.suffix {after : List Token} (h : Edge tokens m after) : after <:+ tokens := by
  cases h with
  | start h => exact h
  | stop h => exact (List.suffix_cons _ _).trans h

namespace Gives

theorem of_suffix (h : Gives rest o) (hsuffix : rest <:+ tokens) : Gives tokens o := by
  cases h with
  | exhausted => exact .exhausted
  | fault h hoffset => exact .fault (h.of_suffix hsuffix) hoffset
  | spans hstart hstop => exact .spans (hstart.of_suffix hsuffix) hstop
  | stands hstart hstop => exact .stands (hstart.of_suffix hsuffix) hstop
  | announces hopens hannounced hstart hnext htokens hstop =>
    exact .announces hopens hannounced (hstart.of_suffix hsuffix) hnext htokens hstop

theorem ite {c : Prop} [Decidable c] {x y : Outcome} (hx : Gives tokens x) (hy : Gives tokens y) :
    Gives tokens (if c then x else y) := by
  split
  · exact hx
  · exact hy

theorem exists_stop {e : Event} {next : Grammar} (h : Gives tokens (.event e next)) :
    ∃ t ∈ tokens, e.stop = t.start ∨ e.stop = t.stop := by
  cases h with
  | spans hstart hstop => exact (hstop.of_suffix hstart.suffix).exists_mem
  | stands hstart hstop =>
    rw [hstop]
    exact hstart.exists_mem
  | announces _ _ hstart hnext _ hstop =>
    rw [hstop]
    exact (Edge.stop (hnext.trans hstart.suffix)).exists_mem

end Gives

theorem gives_complain (p : GrammarProblem) (h : t :: rest <:+ tokens) :
    Gives tokens (complain p t) :=
  .fault (.start h) rfl

theorem gives_read {kind : EventKind} {next : Grammar} (h : t :: rest <:+ tokens)
    (hnext : next.tokens = rest) : Gives tokens (.event ⟨kind, t.start, t.stop⟩ next) := by
  subst hnext
  exact .spans (.start h) (.stop (List.suffix_refl _))

theorem gives_before {kind : EventKind} {next : Grammar} (h : t :: rest <:+ tokens)
    (hnext : next.tokens = t :: rest) : Gives tokens (.event ⟨kind, t.start, t.start⟩ next) := by
  refine .stands ?_ rfl
  rw [hnext]
  exact .start h

/-- Every step that reads a token splits on whether there is one. -/
theorem gives_tokens {f : Token → List Token → Outcome}
    (hf : ∀ t rest, g.tokens = t :: rest → t :: rest <:+ g.tokens → Gives g.tokens (f t rest)) :
    Gives g.tokens (match g.tokens with
      | [] => .exhausted
      | t :: rest => f t rest) := by
  split
  · exact .exhausted
  · rename_i t rest htokens
    exact hf t rest htokens (htokens ▸ List.suffix_refl _)

/-! ## Nodes -/

theorem fronts_splitProperties (tokens : List Token) :
    Fronts tokens (splitProperties tokens).1 (splitProperties tokens).2 := by
  unfold splitProperties
  -- An anchor before a tag, an anchor alone, a tag before an anchor, a tag alone, or neither.
  split
  · exact .two rfl rfl
  · exact .one rfl rfl
  · exact .two rfl rfl
  · exact .one rfl rfl
  · exact .none rfl

/-- The start of a node is an edge, after which its first token comes. -/
theorem Fronts.exists_start {raw : RawProperties} {after : List Token}
    (h : Fronts tokens raw (t :: after)) :
    ∃ rest, Edge tokens (raw.start.getD t.start) rest ∧ t :: after <:+ rest := by
  cases h with
  | none hstart =>
    rw [hstart]
    exact ⟨_, .start (List.suffix_refl _), List.suffix_refl _⟩
  | one hstart _ =>
    rw [hstart]
    exact ⟨_, .start (List.suffix_refl _), List.suffix_cons _ _⟩
  | two hstart _ =>
    rw [hstart]
    exact ⟨_, .start (List.suffix_refl _), (List.suffix_cons _ _).trans (List.suffix_cons _ _)⟩

theorem Fronts.suffix {raw : RawProperties} (h : Fronts tokens raw rest) : rest <:+ tokens := by
  cases h with
  | none _ => exact List.suffix_refl _
  | one _ _ => exact List.suffix_cons _ _
  | two _ _ => exact (List.suffix_cons _ _).trans (List.suffix_cons _ _)

theorem content_nodeContent (block indentless : Bool) (raw : RawProperties)
    (properties : Properties) (g : Grammar) :
    Content raw g.tokens (nodeContent block indentless raw properties g) := by
  unfold nodeContent
  split
  · rename_i htokens
    rw [htokens]
    exact .exhausted
  · rename_i t rest htokens
    rw [htokens]
    dsimp only
    split
    · exact .reads (resume_tokens _)
    · exact .opens rfl rfl trivial
    · exact .opens rfl rfl trivial
    · split
      · rename_i hkind
        refine .opens rfl rfl ⟨t, rest, rfl, ?_⟩
        exact beq_iff_eq.1 (Bool.and_eq_true_iff.1 hkind).2
      · split
        · rename_i hkind
          refine .opensBefore rfl ?_
          rw [beq_iff_eq.1 (Bool.and_eq_true_iff.1 hkind).2]
          rfl
        · split
          · rename_i hkind
            refine .opensBefore rfl ?_
            rw [beq_iff_eq.1 (Bool.and_eq_true_iff.1 hkind).2]
            rfl
          · split
            · rename_i hsome
              exact .omits hsome ((resume_tokens g).trans htokens)
            · exact .complain

theorem Content.gives {raw : RawProperties} {left : List Token} (h : Content raw left o)
    (hraw : Fronts tokens raw left) : Gives tokens o := by
  cases h with
  | exhausted => exact .exhausted
  | complain => exact gives_complain _ hraw.suffix
  | reads hnext =>
    subst hnext
    rcases hraw.exists_start with ⟨mid, hstart, hmid⟩
    exact .spans hstart (.stop hmid)
  | opens hnext hopens hannounced =>
    rcases hraw.exists_start with ⟨mid, hstart, hmid⟩
    exact .announces hopens hannounced hstart hmid hnext rfl
  | opensBefore hnext _ =>
    rcases hraw.exists_start with ⟨mid, hstart, hmid⟩
    refine .spans hstart ?_
    rw [hnext]
    exact .start hmid
  | omits hsome hnext =>
    rw [← hnext] at hraw
    cases hraw with
    | none hstart =>
      rw [hstart] at hsome
      cases hsome
    | one hstart hstop =>
      rw [hstart, hstop]
      exact .spans (.start (List.suffix_refl _)) (.stop (List.suffix_refl _))
    | two hstart hstop =>
      rw [hstart, hstop]
      exact .spans (.start (List.suffix_refl _)) (.stop (List.suffix_cons _ _))

/-- The tag in front of a node stands where its token starts. -/
theorem exists_token_of_tag {handle : Option String} {suffix : String}
    (h : (splitProperties tokens).1.tag = some (handle, suffix, m)) :
    ∃ t ∈ tokens, t.start = m := by
  unfold splitProperties at h
  split at h
  · cases h
    exact ⟨_, List.mem_cons_of_mem _ List.mem_cons_self, rfl⟩
  · cases h
  · cases h
    exact ⟨_, List.mem_cons_self, rfl⟩
  · cases h
    exact ⟨_, List.mem_cons_self, rfl⟩
  · cases h

theorem exists_tag_of_completeTag {handles : List (String × String)}
    {tag : Option (Option String × String × Mark)} {f : Fault}
    (h : completeTag handles tag = .error f) :
    ∃ handle suffix m, tag = some (some handle, suffix, m) ∧ f.offset = m.index := by
  unfold completeTag at h
  split at h
  · cases h
  · cases h
  · split at h
    · cases h
    · cases h
      exact ⟨_, _, _, rfl, rfl⟩

theorem gives_node (block indentless : Bool) (g : Grammar) :
    Gives g.tokens (g.node block indentless) := by
  unfold node
  split
  · exact .exhausted
  · rename_i name s e rest htokens
    rw [htokens]
    exact gives_read (t := ⟨.alias name, s, e⟩) (List.suffix_refl _) (resume_tokens _)
  · dsimp only
    refine .ite .exhausted ?_
    split
    · rename_i f hfault
      rcases exists_tag_of_completeTag hfault with ⟨handle, suffix, m, htag, hoffset⟩
      rcases exists_token_of_tag htag with ⟨t, ht, rfl⟩
      rcases Edge.of_mem ht with ⟨after, hedge⟩
      exact .fault hedge hoffset
    · exact (content_nodeContent _ _ _ _ _).gives (fronts_splitProperties g.tokens)

/-- After an indicator: a node, or an empty scalar at the end of the indicator. -/
theorem gives_afterIndicator (ends : TokenKind → Bool) (block indentless : Bool) (e : Expect)
    (h : t :: rest <:+ tokens) :
    Gives tokens ({ g with tokens := rest }.nodeUnless ends block indentless t.stop e) := by
  unfold nodeUnless
  split
  · exact .exhausted
  · refine .ite (.stands (.stop h) rfl) ?_
    have hnode := gives_node block indentless ({ g with tokens := rest }.thenExpect e)
    exact hnode.of_suffix ((List.suffix_cons _ _).trans h)

/-! ## Documents -/

/-- What is wrong about directives is wrong about one of their tokens. -/
theorem exists_token_of_directives {version : Bool} {handles : List (String × String)} {f : Fault}
    (h : directives version handles tokens = (.error f, rest)) :
    ∃ t ∈ tokens, f.offset = t.start.index := by
  fun_induction directives version handles tokens with
  | case1 | case2 | case4 =>
    cases h
    exact ⟨_, List.mem_cons_self, rfl⟩
  | case3 | case5 | case6 =>
    rename_i ih
    rcases ih h with ⟨t, ht, hoffset⟩
    exact ⟨t, List.mem_cons_of_mem _ ht, hoffset⟩
  | case7 => cases h

/-- A document starts with its directives and stops with its mark. -/
theorem gives_document (g : Grammar) : Gives g.tokens g.document := by
  unfold document
  split
  · exact .exhausted
  · rename_i first rest hdrop
    have hfirst : first :: rest <:+ g.tokens := hdrop ▸ List.dropWhile_suffix _
    refine .ite (gives_read hfirst rfl) ?_
    split
    · rename_i f hdirectives
      rcases exists_token_of_directives hdirectives with ⟨t, ht, hoffset⟩
      rcases Edge.of_mem ht with ⟨after, hedge⟩
      exact .fault (hedge.of_suffix hfirst) hoffset
    · exact .exhausted
    · rename_i handles t after hdirectives
      have hleft := directives_left false [] (first :: rest)
      rw [hdirectives] at hleft
      exact .ite (.spans (.start hfirst) (.stop hleft.suffix))
        (gives_complain _ (hleft.suffix.trans hfirst))

theorem gives_firstDocument (g : Grammar) : Gives g.tokens g.firstDocument := by
  refine gives_tokens fun t rest htokens hall => ?_
  split
  · exact gives_document g
  · exact gives_document g
  · exact gives_document g
  · exact gives_before hall htokens

theorem gives_documentContent (g : Grammar) : Gives g.tokens g.documentContent := by
  refine gives_tokens fun t rest htokens hall => ?_
  have hempty : Gives g.tokens (.event (emptyScalar t.start) g.resume) :=
    gives_before hall ((resume_tokens g).trans htokens)
  split
  · exact hempty
  · exact hempty
  · exact hempty
  · exact hempty
  · exact gives_node true false g

theorem gives_documentEnd (g : Grammar) : Gives g.tokens g.documentEnd :=
  gives_tokens fun _ _ htokens hall => .ite (gives_read hall rfl) (gives_before hall htokens)

/-! ## Collections -/

theorem gives_blockSequence (g : Grammar) : Gives g.tokens g.blockSequence :=
  gives_tokens fun _ _ _ hall => .ite (gives_afterIndicator _ _ _ _ hall)
    (.ite (gives_read hall (resume_tokens _)) (gives_complain _ hall))

theorem gives_indentlessSequence (g : Grammar) : Gives g.tokens g.indentlessSequence :=
  gives_tokens fun _ _ htokens hall => .ite (gives_afterIndicator _ _ _ _ hall)
    (gives_before hall ((resume_tokens g).trans htokens))

theorem gives_blockMappingKey (g : Grammar) : Gives g.tokens g.blockMappingKey :=
  gives_tokens fun _ _ _ hall => .ite (gives_afterIndicator _ _ _ _ hall)
    (.ite (gives_read hall (resume_tokens _)) (gives_complain _ hall))

/-- A value after its indicator, or an empty scalar in its place. -/
theorem gives_value (ends : TokenKind → Bool) (block indentless : Bool) (e : Expect) (g : Grammar) :
    Gives g.tokens (match g.tokens with
      | [] => .exhausted
      | t :: rest =>
        if t.kind == .value then
          { g with tokens := rest }.nodeUnless ends block indentless t.stop e
        else g.omitted t.start e) :=
  gives_tokens fun _ _ htokens hall =>
    .ite (gives_afterIndicator _ _ _ _ hall) (gives_before hall htokens)

/-- The key token of a pair announces a mapping, and is dropped with the key. -/
theorem gives_flowItem (g : Grammar) : Gives g.tokens g.flowItem :=
  gives_tokens fun _ _ htokens hall => .ite
    (.announces rfl trivial (.start hall) (List.suffix_refl _) htokens rfl)
    (.ite (gives_read hall (resume_tokens _)) (gives_node false false (g.thenExpect .flowSequence)))

theorem gives_flowSequence (g : Grammar) : Gives g.tokens g.flowSequence :=
  gives_tokens fun _ _ _ hall => .ite (gives_flowItem g)
    (.ite ((gives_flowItem _).of_suffix ((List.suffix_cons _ _).trans hall))
      (gives_complain _ hall))

theorem gives_flowPairKey (g : Grammar) : Gives g.tokens g.flowPairKey :=
  gives_tokens fun _ _ _ hall => gives_afterIndicator _ _ _ _ hall

theorem gives_flowPairEnd (g : Grammar) : Gives g.tokens g.flowPairEnd :=
  gives_tokens fun _ _ htokens hall => gives_before hall htokens

theorem gives_flowEntry (g : Grammar) : Gives g.tokens g.flowEntry :=
  gives_tokens fun _ _ _ hall => .ite (gives_afterIndicator _ _ _ _ hall)
    (.ite (gives_read hall (resume_tokens _))
      (gives_node false false (g.thenExpect .flowMappingEmptyValue)))

theorem gives_flowMappingKey (g : Grammar) : Gives g.tokens g.flowMappingKey :=
  gives_tokens fun _ _ _ hall => .ite (gives_flowEntry g)
    (.ite ((gives_flowEntry _).of_suffix ((List.suffix_cons _ _).trans hall))
      (gives_complain _ hall))

theorem gives_flowMappingEmptyValue (g : Grammar) : Gives g.tokens g.flowMappingEmptyValue :=
  gives_tokens fun _ _ htokens hall => gives_before hall htokens

/-! ## Steps -/

theorem opened_suffix (g : Grammar) : g.opened.tokens <:+ g.tokens :=
  List.drop_suffix 1 g.tokens

/-- Every outcome of a step stands somewhere among the tokens. -/
theorem gives_step (g : Grammar) : Gives g.tokens g.step := by
  unfold step
  cases g.expect with
  | firstDocument => exact gives_firstDocument g
  | document => exact gives_document g
  | documentContent => exact gives_documentContent g
  | documentEnd => exact gives_documentEnd g
  | blockNode => exact gives_node true false g
  | blockSequenceFirst => exact (gives_blockSequence g.opened).of_suffix (opened_suffix g)
  | blockSequence => exact gives_blockSequence g
  | indentlessSequence => exact gives_indentlessSequence g
  | blockMappingFirst => exact (gives_blockMappingKey g.opened).of_suffix (opened_suffix g)
  | blockMappingKey => exact gives_blockMappingKey g
  | blockMappingValue => exact gives_value _ _ _ _ g
  | flowSequenceFirst => exact (gives_flowItem g.opened).of_suffix (opened_suffix g)
  | flowSequence => exact gives_flowSequence g
  | flowPairKey => exact gives_flowPairKey g
  | flowPairValue => exact gives_value _ _ _ _ g
  | flowPairEnd => exact gives_flowPairEnd g
  | flowMappingFirst => exact (gives_flowEntry g.opened).of_suffix (opened_suffix g)
  | flowMappingKey => exact gives_flowMappingKey g
  | flowMappingValue => exact gives_value _ _ _ _ g
  | flowMappingEmptyValue => exact gives_flowMappingEmptyValue g

end Grammar
end Yaml
end YamlServer
