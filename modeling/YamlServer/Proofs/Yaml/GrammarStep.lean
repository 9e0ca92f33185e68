import YamlServer.Proofs.Yaml.Frame

/-!
# What a step of the grammar does

The state of the grammar says what is due, by what it expects now and what it expects after the open
nodes. Every event that a step gives passes what is due. Besides, a step leaves less to do, so that
steps come to an end, and it does not read past the end of the stream, so that they come to the end
of the stream if the tokens do.

* `Grammar.due`: what is due in a state of the grammar.
* `Grammar.work`: a bound on the events that are left.
* `Grammar.passes_step`: every step does it.
-/

namespace YamlServer
namespace Yaml

/-! ## What the grammar expects -/

def Expect.due : Expect → List Frame
  | .firstDocument | .document => [.stream]
  | .documentContent | .blockNode => [.node]
  | .documentEnd => [.documentEnd, .stream]
  | .blockSequenceFirst | .blockSequence | .indentlessSequence | .flowSequenceFirst
  | .flowSequence => [.items]
  | .blockMappingFirst | .blockMappingKey | .flowMappingFirst | .flowMappingKey => [.entries]
  | .blockMappingValue | .flowMappingValue | .flowMappingEmptyValue => [.node, .entries]
  -- A pair in a flow sequence is a mapping, after which the sequence goes on.
  | .flowPairKey | .flowPairEnd => [.entries, .items]
  | .flowPairValue => [.node, .entries, .items]

def Expect.weight : Expect → Nat
  | .firstDocument => 4
  | .documentContent | .blockNode | .flowPairValue => 2
  | .documentEnd | .indentlessSequence | .blockMappingValue | .flowPairEnd | .flowMappingValue
  | .flowMappingEmptyValue => 1
  | _ => 0

def Expect.weights : List Expect → Nat
  | [] => 0
  | e :: rest => e.weight + weights rest

def Expect.dropped? : Expect → Option TokenKind
  | .blockSequenceFirst => some .blockSequenceStart
  | .blockMappingFirst => some .blockMappingStart
  | .flowSequenceFirst => some .flowSequenceStart
  | .flowMappingFirst => some .flowMappingStart
  | .flowPairKey => some .key
  | _ => none

def Expect.skips (e : Expect) : Bool :=
  e.dropped?.isSome

theorem Expect.forall_dropped? {e : Expect} (h : e.skips = false) {p : TokenKind → Prop} :
    ∀ k ∈ e.dropped?, p k := by
  intro k hk
  rw [Expect.skips, hk] at h
  cases h

theorem Expect.ne_streamEnd_of_dropped? {e : Expect} {k : TokenKind} (h : e.dropped? = some k) :
    k ≠ .streamEnd := by
  cases e <;> cases h <;> exact TokenKind.noConfusion

/-! ## What is left of the tokens -/

/-- What is left of `base` once some tokens were read, none of them the end of the stream. -/
def Left (base tokens : List Token) : Prop :=
  ∃ read, base = read ++ tokens ∧ ∀ t ∈ read, t.kind ≠ .streamEnd

namespace Left

variable {base tokens tokens' : List Token}

theorem refl (tokens : List Token) : Left tokens tokens :=
  ⟨[], rfl, fun _ ht => nomatch ht⟩

theorem trans (h : Left base tokens) (h' : Left tokens tokens') : Left base tokens' := by
  rcases h with ⟨read, rfl, hread⟩
  rcases h' with ⟨read', rfl, hread'⟩
  refine ⟨read ++ read', (List.append_assoc ..).symm, ?_⟩
  intro t ht
  rcases List.mem_append.1 ht with ht | ht
  · exact hread t ht
  · exact hread' t ht

theorem tail {t : Token} (h : Left base (t :: tokens)) (ht : t.kind ≠ .streamEnd) :
    Left base tokens :=
  h.trans ⟨[t], rfl, fun _ hu => List.mem_singleton.1 hu ▸ ht⟩

theorem suffix (h : Left base tokens) : tokens <:+ base := by
  rcases h with ⟨read, rfl, -⟩
  exact List.suffix_append read tokens

theorem sublist (h : Left base tokens) : tokens.Sublist base :=
  h.suffix.sublist

/-- The end of the stream stays among the tokens that are left. -/
theorem mem {t : Token} (h : Left base tokens) (ht : t ∈ base) (hend : t.kind = .streamEnd) :
    t ∈ tokens := by
  rcases h with ⟨read, rfl, hread⟩
  rcases List.mem_append.1 ht with ht | ht
  · exact absurd hend (hread t ht)
  · exact ht

end Left

namespace Grammar

def later (g : Grammar) : List Frame :=
  g.pending.flatMap Expect.due

def due (g : Grammar) : List Frame :=
  g.expect.due ++ g.later

/-- What is left to do after the current node. A token brings at most four events with it. -/
def laterWork (g : Grammar) : Nat :=
  4 * g.tokens.length + Expect.weights g.pending

def work (g : Grammar) : Nat :=
  g.laterWork + g.expect.weight

/-- A state that drops a token has that token to drop. -/
structure Primed (g : Grammar) : Prop where
  head : ∀ k ∈ g.expect.dropped?, ∃ t rest, g.tokens = t :: rest ∧ t.kind = k
  pending : ∀ e ∈ g.pending, e.skips = false

/-- What a step that started with the tokens `base` and the work `bound` leaves. -/
structure Fit (base : List Token) (bound : Nat) (g : Grammar) : Prop where
  left : Left base g.tokens
  work : g.work < bound
  primed : g.Primed

/-- A step that gives an event opens a node, after which `later` is due. It runs out of tokens only
if they do not hold the end of the stream. -/
structure Opens (base : List Token) (bound : Nat) (later : List Frame) (o : Outcome) : Prop where
  exhausted : o = .exhausted → ∀ t ∈ base, t.kind ≠ .streamEnd
  event : ∀ e next, o = .event e next →
    Fit base bound next ∧ ∃ inner, e.kind.opening = some inner ∧ next.due = inner ++ later

/-- A step that gives an event passes `due`, or ends the stream as one of the tokens does. It runs
out of tokens only if they do not hold the end of the stream. -/
structure Passes (base : List Token) (bound : Nat) (due : List Frame) (o : Outcome) : Prop where
  exhausted : o = .exhausted → ∀ t ∈ base, t.kind ≠ .streamEnd
  event : ∀ e next, o = .event e next →
    (e.kind = .streamEnd ∧ (∃ t ∈ base, t.kind = .streamEnd) ∧ ∃ more, due = .stream :: more) ∨
      Fit base bound next ∧ e.kind.pass due = some next.due

variable {g : Grammar} {base : List Token} {bound : Nat} {later : List Frame} {o : Outcome}

theorem opens_event {e : Event} {next : Grammar} {inner : List Frame}
    (hfit : Fit base bound next) (he : e.kind.opening = some inner)
    (hnext : next.due = inner ++ later) : Opens base bound later (.event e next) := by
  refine ⟨Outcome.noConfusion, ?_⟩
  intro e' next' heq
  cases heq
  exact ⟨hfit, inner, he, hnext⟩

theorem opens_exhausted (h : Left base []) : Opens base bound later .exhausted :=
  ⟨fun _ _ ht hend => List.not_mem_nil (h.mem ht hend), fun _ _ heq => Outcome.noConfusion heq⟩

theorem opens_fault (f : Fault) : Opens base bound later (.fault f) :=
  ⟨Outcome.noConfusion, fun _ _ heq => Outcome.noConfusion heq⟩

theorem passes_event {due : List Frame} {e : Event} {next : Grammar}
    (hfit : Fit base bound next) (he : e.kind.pass due = some next.due) :
    Passes base bound due (.event e next) := by
  refine ⟨Outcome.noConfusion, ?_⟩
  intro e' next' heq
  cases heq
  exact Or.inr ⟨hfit, he⟩

theorem passes_exhausted {due : List Frame} (h : Left base []) :
    Passes base bound due .exhausted :=
  ⟨fun _ _ ht hend => List.not_mem_nil (h.mem ht hend), fun _ _ heq => Outcome.noConfusion heq⟩

theorem passes_fault {due : List Frame} (f : Fault) : Passes base bound due (.fault f) :=
  ⟨Outcome.noConfusion, fun _ _ heq => Outcome.noConfusion heq⟩

namespace Opens

theorem passes (h : Opens base bound later o) {due : List Frame}
    (hdue : ∀ (k : EventKind) inner, k.opening = some inner → k.pass due = some (inner ++ later)) :
    Passes base bound due o := by
  refine ⟨h.exhausted, ?_⟩
  intro e next heq
  rcases h.event e next heq with ⟨hfit, inner, hinner, hnext⟩
  exact Or.inr ⟨hfit, (hdue e.kind inner hinner).trans (congrArg some hnext.symm)⟩

theorem node (h : Opens base bound later o) : Passes base bound (.node :: later) o := by
  refine h.passes fun k inner hk => ?_
  rw [EventKind.pass, hk]
  rfl

theorem item (h : Opens base bound (.items :: later) o) :
    Passes base bound (.items :: later) o := by
  refine h.passes fun k inner hk => ?_
  have hend : k ≠ .sequenceEnd := by
    rintro rfl
    cases hk
  rw [EventKind.pass, if_neg hend, hk]
  rfl

theorem key (h : Opens base bound (.node :: .entries :: later) o) :
    Passes base bound (.entries :: later) o := by
  refine h.passes fun k inner hk => ?_
  have hend : k ≠ .mappingEnd := by
    rintro rfl
    cases hk
  rw [EventKind.pass, if_neg hend, hk]
  rfl

end Opens

/-! ## Changes of the state -/

/-- A state in the middle of a step that started with the tokens `base`. -/
structure Midway (base : List Token) (g : Grammar) : Prop where
  left : Left base g.tokens
  pending : ∀ e ∈ g.pending, e.skips = false

theorem laterWork_read {t : Token} {rest : List Token} (h : g.tokens = t :: rest) :
    g.laterWork = { g with tokens := rest }.laterWork + 4 := by
  simp only [laterWork, h, List.length_cons]
  omega

@[simp]
theorem laterWork_thenExpect (e : Expect) (g : Grammar) :
    (g.thenExpect e).laterWork = g.laterWork + e.weight := by
  simp only [laterWork, thenExpect, Expect.weights]
  omega

/-- Going on after a node: what was pending is due. -/
theorem due_resume (h : g.pending ≠ []) : g.resume.due = g.later := by
  unfold resume
  split
  · rename_i e rest hpending
    rw [due, Grammar.later, Grammar.later, hpending, List.flatMap_cons]
  · rename_i hpending
    exact absurd hpending h

@[simp] theorem resume_tokens (g : Grammar) : g.resume.tokens = g.tokens := by
  unfold resume
  split <;> rfl

theorem kind_ne_streamEnd {t : Token} {k : TokenKind} (h : (t.kind == k) = true)
    (hk : k ≠ .streamEnd) : t.kind ≠ .streamEnd := by
  rw [beq_iff_eq.1 h]
  exact hk

namespace Midway

theorem exhausted (h : Midway base g) (htokens : g.tokens = []) : Left base [] :=
  htokens ▸ h.left

theorem read (h : Midway base g) {t : Token} {rest : List Token} (htokens : g.tokens = t :: rest)
    (ht : t.kind ≠ .streamEnd) : Midway base { g with tokens := rest } :=
  ⟨(htokens ▸ h.left : Left base (t :: rest)).tail ht, h.pending⟩

theorem thenExpect (h : Midway base g) {e : Expect} (he : e.skips = false) :
    Midway base (g.thenExpect e) := by
  refine ⟨h.left, ?_⟩
  intro e' he'
  rcases List.mem_cons.1 he' with rfl | he'
  · exact he
  · exact h.pending e' he'

/-- The node is over, and what was pending is expected. -/
theorem resume (h : Midway base g) (hpending : g.pending ≠ []) (hwork : g.laterWork < bound) :
    Fit base bound g.resume := by
  unfold Grammar.resume
  split
  · rename_i e rest heq
    have hplain : ∀ e' ∈ e :: rest, e'.skips = false := heq ▸ h.pending
    refine ⟨h.left, ?_, ?_, fun e' he' => hplain e' (List.mem_cons_of_mem _ he')⟩
    · simp only [laterWork, heq, Expect.weights] at hwork
      simp only [work, laterWork]
      omega
    · exact Expect.forall_dropped? (hplain e List.mem_cons_self)
  · rename_i heq
    exact absurd heq hpending

/-- Something else is expected. If it drops a token, that has to be there. -/
theorem expect (h : Midway base g) {e : Expect}
    (hhead : ∀ k ∈ e.dropped?, ∃ t rest, g.tokens = t :: rest ∧ t.kind = k)
    (hwork : g.laterWork + e.weight < bound) : Fit base bound { g with expect := e } :=
  ⟨h.left, hwork, hhead, h.pending⟩

theorem expectPlain (h : Midway base g) {e : Expect} (he : e.skips = false)
    (hwork : g.laterWork + e.weight < bound) : Fit base bound { g with expect := e } :=
  h.expect (Expect.forall_dropped? he) hwork

end Midway

/-! ## Nodes -/

theorem splitProperties_left (tokens : List Token) : Left tokens (splitProperties tokens).2 := by
  unfold splitProperties
  split
  · exact ((Left.refl _).tail TokenKind.noConfusion).tail TokenKind.noConfusion
  · exact (Left.refl _).tail TokenKind.noConfusion
  · exact ((Left.refl _).tail TokenKind.noConfusion).tail TokenKind.noConfusion
  · exact (Left.refl _).tail TokenKind.noConfusion
  · exact Left.refl _

theorem opens_nodeContent (block indentless : Bool) (raw : RawProperties) (properties : Properties)
    (hmid : Midway base g) (h : g.pending ≠ []) (hwork : g.laterWork + 1 < bound) :
    Opens base bound g.later (nodeContent block indentless raw properties g) := by
  unfold nodeContent
  split
  · rename_i htokens
    exact opens_exhausted (hmid.exhausted htokens)
  · rename_i t rest htokens
    have hread := laterWork_read htokens
    -- The token that opens a collection is dropped by the next step.
    have hopen : ∀ {e : Expect}, e.dropped? = some t.kind → e.weight = 0 →
        Fit base bound { g with expect := e } := by
      intro e hdrop hweight
      refine hmid.expect (fun k hk => ⟨t, rest, htokens, ?_⟩) (by omega)
      exact Option.some.inj (hdrop.symm.trans hk)
    dsimp only
    split
    · rename_i hkind
      have hrest := hmid.read htokens (hkind ▸ TokenKind.noConfusion)
      exact opens_event (hrest.resume h (by omega)) rfl (due_resume h)
    · rename_i hkind
      exact opens_event (hopen (congrArg some hkind.symm) rfl) rfl rfl
    · rename_i hkind
      exact opens_event (hopen (congrArg some hkind.symm) rfl) rfl rfl
    · split
      · exact opens_event (hmid.expectPlain (e := .indentlessSequence) rfl hwork) rfl rfl
      · split
        · rename_i hkind
          have hstart := beq_iff_eq.1 (Bool.and_eq_true_iff.1 hkind).2
          exact opens_event (hopen (congrArg some hstart.symm) rfl) rfl rfl
        · split
          · rename_i hkind
            have hstart := beq_iff_eq.1 (Bool.and_eq_true_iff.1 hkind).2
            exact opens_event (hopen (congrArg some hstart.symm) rfl) rfl rfl
          · split
            · exact opens_event (hmid.resume h (by omega)) rfl (due_resume h)
            · exact opens_fault _

theorem opens_node (block indentless : Bool) (hmid : Midway base g) (h : g.pending ≠ [])
    (hwork : g.laterWork + 1 < bound) : Opens base bound g.later (g.node block indentless) := by
  unfold node
  split
  · rename_i htokens
    exact opens_exhausted (hmid.exhausted htokens)
  · rename_i name s e rest htokens
    have hread := laterWork_read htokens
    have hrest := hmid.read htokens TokenKind.noConfusion
    exact opens_event (hrest.resume h (by omega)) rfl (due_resume h)
  -- Properties are no end of the stream, so tokens that end with them have none.
  · have hleft := splitProperties_left g.tokens
    have hsplit : Midway base { g with tokens := (splitProperties g.tokens).2 } :=
      ⟨hmid.left.trans hleft, hmid.pending⟩
    have hless : { g with tokens := (splitProperties g.tokens).2 }.laterWork ≤ g.laterWork := by
      have hlength := hleft.sublist.length_le
      simp only [laterWork]
      omega
    dsimp only
    split
    · rename_i hempty
      exact opens_exhausted
        (hsplit.exhausted (List.isEmpty_iff.1 (Bool.and_eq_true_iff.1 hempty).1))
    · split
      · exact opens_fault _
      · exact opens_nodeContent block indentless _ _ hsplit h (by omega)

theorem opens_nodeUnless (ends : TokenKind → Bool) (block indentless : Bool) (m : Mark) {e : Expect}
    (he : e.skips = false) (hmid : Midway base g) (hwork : g.laterWork + e.weight + 1 < bound) :
    Opens base bound (e.due ++ g.later) (g.nodeUnless ends block indentless m e) := by
  unfold nodeUnless
  split
  · rename_i htokens
    exact opens_exhausted (hmid.exhausted htokens)
  · split
    · exact opens_event (hmid.expectPlain he (by omega)) rfl rfl
    · have hpending : (g.thenExpect e).pending ≠ [] := List.cons_ne_nil _ _
      have hthen := laterWork_thenExpect e g
      exact opens_node block indentless (hmid.thenExpect he) hpending (by omega)

/-- Every step that reads a token splits on whether there is one. -/
theorem passes_tokens {due : List Frame} {f : Token → List Token → Outcome} (hmid : Midway base g)
    (hf : ∀ t rest, g.tokens = t :: rest → g.laterWork = { g with tokens := rest }.laterWork + 4 →
      Passes base bound due (f t rest)) :
    Passes base bound due (match g.tokens with
      | [] => .exhausted
      | t :: rest => f t rest) := by
  split
  · rename_i htokens
    exact passes_exhausted (hmid.exhausted htokens)
  · rename_i t rest htokens
    exact hf t rest htokens (laterWork_read htokens)

/-- A token of a kind that was asked for is read, unless it ends the stream. -/
theorem passes_kind {due : List Frame} {k : TokenKind} {t : Token} {rest : List Token}
    {x y : Outcome} (hk : k ≠ .streamEnd) (hmid : Midway base g) (htokens : g.tokens = t :: rest)
    (hx : t.kind = k → Midway base { g with tokens := rest } → Passes base bound due x)
    (hy : Passes base bound due y) : Passes base bound due (if t.kind == k then x else y) := by
  split
  · rename_i hkind
    exact hx (beq_iff_eq.1 hkind) (hmid.read htokens (kind_ne_streamEnd hkind hk))
  · exact hy

theorem passes_resume {f : Frame} {e : Event} (he : ∀ due, e.kind.pass (f :: due) = some due)
    (hmid : Midway base g) (h : g.pending ≠ []) (hwork : g.laterWork < bound) :
    Passes base bound (f :: g.later) (.event e g.resume) := by
  refine passes_event (hmid.resume h hwork) ?_
  rw [due_resume h]
  exact he g.later

/-! ## Documents -/

theorem directives_left (version : Bool) (handles : List (String × String)) (tokens : List Token) :
    Left tokens (directives version handles tokens).2 := by
  fun_induction directives version handles tokens with
  | case1 => exact (Left.refl _).tail TokenKind.noConfusion
  | case2 => exact (Left.refl _).tail TokenKind.noConfusion
  | case3 =>
    rename_i ih
    exact ((Left.refl _).tail TokenKind.noConfusion).trans ih
  | case4 => exact (Left.refl _).tail TokenKind.noConfusion
  | case5 =>
    rename_i ih
    exact ((Left.refl _).tail TokenKind.noConfusion).trans ih
  | case6 =>
    rename_i ih
    exact ((Left.refl _).tail TokenKind.noConfusion).trans ih
  | case7 => exact Left.refl _

theorem dropWhile_left (tokens : List Token) :
    Left tokens (tokens.dropWhile (·.kind == .documentEnd)) := by
  refine ⟨_, List.takeWhile_append_dropWhile.symm, ?_⟩
  intro t ht
  exact kind_ne_streamEnd (List.all_eq_true.1 List.all_takeWhile t ht) TokenKind.noConfusion

theorem passes_document (hmid : Midway base g) (hwork : g.laterWork ≤ bound) :
    Passes base bound (.stream :: g.later) g.document := by
  -- Further document ends are passed over before anything else.
  have hdrop := dropWhile_left g.tokens
  have hlength := hdrop.sublist.length_le
  unfold document
  split
  · rename_i hnil
    rw [hnil] at hdrop
    exact passes_exhausted (hmid.left.trans hdrop)
  · rename_i first rest hcons
    rw [hcons] at hdrop hlength
    have hfirst := hmid.left.trans hdrop
    split
    · rename_i hkind
      refine ⟨Outcome.noConfusion, ?_⟩
      intro e next heq
      cases heq
      exact Or.inl ⟨rfl, ⟨first, hfirst.sublist.subset List.mem_cons_self, beq_iff_eq.1 hkind⟩,
        _, rfl⟩
    · have hdirectives := directives_left false [] (first :: rest)
      split
      · exact passes_fault _
      · rename_i hnil
        rw [hnil] at hdirectives
        exact passes_exhausted (hfirst.trans hdirectives)
      · rename_i handles t after heq
        rw [heq] at hdirectives
        split
        · rename_i hstart
          have hlength' := hdirectives.sublist.length_le
          have hrest := (hfirst.trans hdirectives).tail
            (kind_ne_streamEnd hstart TokenKind.noConfusion)
          refine passes_event ⟨hrest, ?_, (fun _ hk => nomatch hk), ?_⟩ rfl
          · simp only [laterWork] at hwork
            simp only [work, laterWork, Expect.weights, Expect.weight,
              List.length_cons] at hlength hlength' ⊢
            omega
          · intro e he
            rcases List.mem_cons.1 he with rfl | he
            · rfl
            · exact hmid.pending e he
        · exact passes_fault _

theorem passes_firstDocument (hmid : Midway base g) (hwork : g.laterWork + 4 ≤ bound) :
    Passes base bound (.stream :: g.later) g.firstDocument := by
  have hdocument : Passes base bound (.stream :: g.later) g.document :=
    passes_document hmid (by omega)
  refine passes_tokens hmid fun t rest htokens hread => ?_
  split
  · exact hdocument
  · exact hdocument
  · exact hdocument
  · have hdocument := hmid.thenExpect (e := .documentEnd) rfl
    refine passes_event ⟨hdocument.left, ?_, (fun _ hk => nomatch hk), hdocument.pending⟩ rfl
    -- The end of the document is pending from here on.
    calc
      (g.thenExpect .documentEnd).laterWork + 2 = g.laterWork + 1 + 2 := by
        rw [laterWork_thenExpect]
        rfl
      _ < bound := by omega

theorem passes_documentContent (hmid : Midway base g) (h : g.pending ≠ [])
    (hwork : g.laterWork + 1 < bound) :
    Passes base bound (.node :: g.later) g.documentContent := by
  have hempty : ∀ t : Token,
      Passes base bound (.node :: g.later) (.event (emptyScalar t.start) g.resume) :=
    fun _ => passes_resume (fun _ => rfl) hmid h (by omega)
  refine passes_tokens hmid fun t rest _ _ => ?_
  split
  · exact hempty _
  · exact hempty _
  · exact hempty _
  · exact hempty _
  · exact (opens_node true false hmid h hwork).node

theorem passes_documentEnd (hmid : Midway base g) (hwork : g.laterWork < bound) :
    Passes base bound (.documentEnd :: .stream :: g.later) g.documentEnd := by
  refine passes_tokens hmid fun t rest htokens hread => ?_
  refine passes_kind TokenKind.noConfusion hmid htokens (fun _ hrest => ?_) ?_
  · refine passes_event (hrest.expectPlain (e := .document) rfl ?_) rfl
    simp only [Expect.weight]
    omega
  · exact passes_event (hmid.expectPlain (e := .document) rfl hwork) rfl

/-! ## Collections -/

theorem passes_blockSequence (hmid : Midway base g) (h : g.pending ≠ [])
    (hwork : g.laterWork ≤ bound) : Passes base bound (.items :: g.later) g.blockSequence := by
  refine passes_tokens hmid fun t rest htokens hread => ?_
  refine passes_kind TokenKind.noConfusion hmid htokens (fun _ hrest => ?_) ?_
  · exact (opens_nodeUnless _ _ _ _ (e := .blockSequence) rfl hrest (by
      simp only [Expect.weight]; omega)).item
  · refine passes_kind TokenKind.noConfusion hmid htokens (fun _ hrest => ?_) (passes_fault _)
    exact passes_resume (fun _ => rfl) hrest h (by omega)

theorem passes_indentlessSequence (hmid : Midway base g) (h : g.pending ≠ [])
    (hwork : g.laterWork < bound) :
    Passes base bound (.items :: g.later) g.indentlessSequence := by
  refine passes_tokens hmid fun t rest htokens hread => ?_
  refine passes_kind TokenKind.noConfusion hmid htokens (fun _ hrest => ?_) ?_
  · exact (opens_nodeUnless _ _ _ _ (e := .indentlessSequence) rfl hrest (by
      simp only [Expect.weight]; omega)).item
  · exact passes_resume (fun _ => rfl) hmid h hwork

theorem passes_blockMappingKey (hmid : Midway base g) (h : g.pending ≠ [])
    (hwork : g.laterWork ≤ bound) : Passes base bound (.entries :: g.later) g.blockMappingKey := by
  refine passes_tokens hmid fun t rest htokens hread => ?_
  refine passes_kind TokenKind.noConfusion hmid htokens (fun _ hrest => ?_) ?_
  · exact (opens_nodeUnless _ _ _ _ (e := .blockMappingValue) rfl hrest (by
      simp only [Expect.weight]; omega)).key
  · refine passes_kind TokenKind.noConfusion hmid htokens (fun _ hrest => ?_) (passes_fault _)
    exact passes_resume (fun _ => rfl) hrest h (by omega)

/-- A value after its indicator, or an empty scalar in its place. -/
theorem passes_value (ends : TokenKind → Bool) (block indentless : Bool) {e : Expect}
    (he : e.skips = false) (hmid : Midway base g) (hwork : g.laterWork + e.weight < bound) :
    Passes base bound (.node :: (e.due ++ g.later)) (match g.tokens with
      | [] => .exhausted
      | t :: rest =>
        if t.kind == .value then
          { g with tokens := rest }.nodeUnless ends block indentless t.stop e
        else g.omitted t.start e) := by
  refine passes_tokens hmid fun t rest htokens hread => ?_
  refine passes_kind TokenKind.noConfusion hmid htokens (fun _ hrest => ?_) ?_
  · exact (opens_nodeUnless _ _ _ _ he hrest (by omega)).node
  · exact passes_event (hmid.expectPlain he hwork) rfl

theorem passes_flowItem (hmid : Midway base g) (h : g.pending ≠ [])
    (hwork : g.laterWork + 1 < bound) : Passes base bound (.items :: g.later) g.flowItem := by
  refine passes_tokens hmid fun t rest htokens hread => ?_
  split
  · rename_i hkind
    refine passes_event (hmid.expect (e := .flowPairKey) (fun k hk => ⟨t, rest, htokens, ?_⟩)
      (Nat.lt_of_succ_lt hwork)) rfl
    exact (beq_iff_eq.1 hkind).trans (Option.some.inj hk)
  · refine passes_kind TokenKind.noConfusion hmid htokens (fun _ hrest => ?_) ?_
    · exact passes_resume (fun _ => rfl) hrest h (by omega)
    · have hpending : (g.thenExpect .flowSequence).pending ≠ [] := List.cons_ne_nil _ _
      have hthen : (g.thenExpect .flowSequence).laterWork = g.laterWork := laterWork_thenExpect _ g
      exact (opens_node false false (hmid.thenExpect rfl) hpending (by omega)).item

/-- The end of a flow sequence is read at once, and needs no comma before it. -/
theorem flowItem_end {t : Token} {rest : List Token} (htokens : g.tokens = t :: rest)
    (hkind : t.kind = .flowSequenceEnd) :
    g.flowItem = .event ⟨.sequenceEnd, t.start, t.stop⟩ { g with tokens := rest }.resume := by
  rw [flowItem, htokens]
  dsimp only
  rw [hkind]
  rfl

theorem passes_flowSequence (hmid : Midway base g) (h : g.pending ≠ [])
    (hwork : g.laterWork ≤ bound) : Passes base bound (.items :: g.later) g.flowSequence := by
  refine passes_tokens hmid fun t rest htokens hread => ?_
  refine passes_kind TokenKind.noConfusion hmid htokens (fun hkind hrest => ?_) ?_
  · rw [flowItem_end htokens hkind]
    exact passes_resume (fun _ => rfl) hrest h (by omega)
  · refine passes_kind TokenKind.noConfusion hmid htokens (fun _ hrest => ?_) (passes_fault _)
    exact passes_flowItem hrest h (by omega)

theorem passes_flowPairKey (hmid : Midway base g)
    (hhead : ∃ t rest, g.tokens = t :: rest ∧ t.kind ≠ .streamEnd) (hwork : g.laterWork ≤ bound) :
    Passes base bound (.entries :: .items :: g.later) g.flowPairKey := by
  rcases hhead with ⟨t, rest, htokens, ht⟩
  have hread := laterWork_read htokens
  have hrest := hmid.read htokens ht
  rw [flowPairKey, htokens]
  exact (opens_nodeUnless _ _ _ _ (e := .flowPairValue) rfl hrest (by
    simp only [Expect.weight]; omega)).key

theorem passes_flowPairEnd (hmid : Midway base g) (hwork : g.laterWork < bound) :
    Passes base bound (.entries :: .items :: g.later) g.flowPairEnd := by
  exact passes_tokens hmid fun _ _ _ _ =>
    passes_event (hmid.expectPlain (e := .flowSequence) rfl hwork) rfl

theorem passes_flowEntry (hmid : Midway base g) (h : g.pending ≠ [])
    (hwork : g.laterWork + 2 < bound) : Passes base bound (.entries :: g.later) g.flowEntry := by
  refine passes_tokens hmid fun t rest htokens hread => ?_
  refine passes_kind TokenKind.noConfusion hmid htokens (fun _ hrest => ?_) ?_
  · exact (opens_nodeUnless _ _ _ _ (e := .flowMappingValue) rfl hrest (by
      simp only [Expect.weight]; omega)).key
  · refine passes_kind TokenKind.noConfusion hmid htokens (fun _ hrest => ?_) ?_
    · exact passes_resume (fun _ => rfl) hrest h (by omega)
    · have hpending : (g.thenExpect .flowMappingEmptyValue).pending ≠ [] := List.cons_ne_nil _ _
      have hthen : (g.thenExpect .flowMappingEmptyValue).laterWork = g.laterWork + 1 :=
        laterWork_thenExpect _ g
      exact (opens_node false false (hmid.thenExpect rfl) hpending (by omega)).key

/-- The end of a flow mapping is read at once, and needs no comma before it. -/
theorem flowEntry_end {t : Token} {rest : List Token} (htokens : g.tokens = t :: rest)
    (hkind : t.kind = .flowMappingEnd) :
    g.flowEntry = .event ⟨.mappingEnd, t.start, t.stop⟩ { g with tokens := rest }.resume := by
  rw [flowEntry, htokens]
  dsimp only
  rw [hkind]
  rfl

theorem passes_flowMappingKey (hmid : Midway base g) (h : g.pending ≠ [])
    (hwork : g.laterWork ≤ bound) : Passes base bound (.entries :: g.later) g.flowMappingKey := by
  refine passes_tokens hmid fun t rest htokens hread => ?_
  refine passes_kind TokenKind.noConfusion hmid htokens (fun hkind hrest => ?_) ?_
  · rw [flowEntry_end htokens hkind]
    exact passes_resume (fun _ => rfl) hrest h (by omega)
  · refine passes_kind TokenKind.noConfusion hmid htokens (fun _ hrest => ?_) (passes_fault _)
    exact passes_flowEntry hrest h (by omega)

theorem passes_flowMappingEmptyValue (hmid : Midway base g) (hwork : g.laterWork < bound) :
    Passes base bound (.node :: .entries :: g.later) g.flowMappingEmptyValue := by
  exact passes_tokens hmid fun _ _ _ _ =>
    passes_event (hmid.expectPlain (e := .flowMappingKey) rfl hwork) rfl

/-! ## Steps -/

/-- Inside a document something is pending, since further documents are due in the end. -/
theorem pending_ne_nil (hlast : g.due.getLast? = some .stream)
    (hexpect : g.expect.due.getLast? ≠ some .stream) : g.pending ≠ [] := by
  -- What is expected would be all that is due, and does not end with further documents.
  intro hpending
  rw [due, later, hpending, List.flatMap_nil, List.append_nil] at hlast
  exact hexpect hlast

/-- There is a token to drop, which is not the end of the stream. -/
theorem Primed.exists_dropped (hprimed : g.Primed) (hskips : g.expect.skips = true) :
    ∃ t rest, g.tokens = t :: rest ∧ t.kind ≠ .streamEnd := by
  rcases Option.isSome_iff_exists.1 hskips with ⟨k, hk⟩
  rcases hprimed.head k hk with ⟨t, rest, htokens, rfl⟩
  exact ⟨t, rest, htokens, Expect.ne_streamEnd_of_dropped? hk⟩

/-- Dropping the token that opens a collection. -/
theorem Primed.opened (hprimed : g.Primed) (hskips : g.expect.skips = true) :
    Midway g.tokens g.opened ∧ g.laterWork = g.opened.laterWork + 4 := by
  rcases hprimed.exists_dropped hskips with ⟨t, rest, htokens, ht⟩
  have hopened : g.opened = { g with tokens := rest } := by
    rw [Grammar.opened, htokens]
    rfl
  have hmid : Midway g.tokens g := ⟨Left.refl _, hprimed.pending⟩
  rw [hopened]
  exact ⟨hmid.read htokens ht, laterWork_read htokens⟩

/-- Every step of the grammar passes what is due, and leaves less to do. -/
theorem passes_step (hlast : g.due.getLast? = some .stream) (hprimed : g.Primed) :
    Passes g.tokens g.work g.due g.step := by
  have hmid : Midway g.tokens g := ⟨Left.refl _, hprimed.pending⟩
  have hpending : ∀ {e : Expect}, g.expect = e → e.due.getLast? ≠ some .stream →
      g.pending ≠ [] := by
    rintro e rfl
    exact pending_ne_nil hlast
  have hopened : ∀ {e : Expect}, g.expect = e → e.skips = true →
      Midway g.tokens g.opened ∧ g.laterWork = g.opened.laterWork + 4 := by
    rintro e rfl
    exact hprimed.opened
  -- One case for each thing to expect, with what it adds to the work.
  unfold step
  rw [work, due]
  cases hexpect : g.expect with
  | firstDocument => exact passes_firstDocument hmid (Nat.le_refl _)
  | document => exact passes_document hmid (Nat.le_refl _)
  | documentEnd => exact passes_documentEnd hmid (Nat.lt_succ_self _)
  | documentContent =>
    exact passes_documentContent hmid (hpending hexpect (by decide)) (Nat.lt_succ_self _)
  | blockNode =>
    exact (opens_node true false hmid (hpending hexpect (by decide)) (Nat.lt_succ_self _)).node
  | blockSequenceFirst =>
    rcases hopened hexpect rfl with ⟨hopened, hread⟩
    rw [hread]
    exact passes_blockSequence hopened (hpending hexpect (by decide)) (Nat.le_add_right _ _)
  | blockSequence =>
    exact passes_blockSequence hmid (hpending hexpect (by decide)) (Nat.le_refl _)
  | indentlessSequence =>
    exact passes_indentlessSequence hmid (hpending hexpect (by decide)) (Nat.lt_succ_self _)
  | blockMappingFirst =>
    rcases hopened hexpect rfl with ⟨hopened, hread⟩
    rw [hread]
    exact passes_blockMappingKey hopened (hpending hexpect (by decide)) (Nat.le_add_right _ _)
  | blockMappingKey =>
    exact passes_blockMappingKey hmid (hpending hexpect (by decide)) (Nat.le_refl _)
  | blockMappingValue =>
    exact passes_value _ _ _ (e := .blockMappingKey) rfl hmid (Nat.lt_succ_self _)
  | flowSequenceFirst =>
    rcases hopened hexpect rfl with ⟨hopened, hread⟩
    rw [hread]
    exact passes_flowItem hopened (hpending hexpect (by decide)) (Nat.add_lt_add_left (by decide) _)
  | flowSequence => exact passes_flowSequence hmid (hpending hexpect (by decide)) (Nat.le_refl _)
  | flowPairKey =>
    exact passes_flowPairKey hmid (hprimed.exists_dropped (by rw [hexpect]; rfl)) (Nat.le_refl _)
  | flowPairValue => exact passes_value _ _ _ (e := .flowPairEnd) rfl hmid (Nat.lt_succ_self _)
  | flowPairEnd => exact passes_flowPairEnd hmid (Nat.lt_succ_self _)
  | flowMappingFirst =>
    rcases hopened hexpect rfl with ⟨hopened, hread⟩
    rw [hread]
    exact passes_flowEntry hopened (hpending hexpect (by decide))
      (Nat.add_lt_add_left (by decide) _)
  | flowMappingKey =>
    exact passes_flowMappingKey hmid (hpending hexpect (by decide)) (Nat.le_refl _)
  | flowMappingValue =>
    exact passes_value _ _ _ (e := .flowMappingKey) rfl hmid (Nat.lt_succ_self _)
  | flowMappingEmptyValue => exact passes_flowMappingEmptyValue hmid (Nat.lt_succ_self _)

end Grammar

end Yaml
end YamlServer
