import YamlServer.Proofs.Document.Caching
import YamlServer.Session

/-!
# What messages leave alone

Each message touches a part of the state of a server. Settings leave the texts and the kept parses
as they are; questions about a text change nothing but the kept parses.

* `Session.parsed_of_open`: reading an open text is one request to the cache.
* `Session.session_diagnostics`, `Session.session_publish`, `Session.session_resolveNode`: a
  question leaves the state that reading its text leaves.
* `Session.answer_diagnostics_congr`: what diagnostics depend on.
-/

namespace YamlServer
namespace Effect

variable {α β : Type}

theorem bind_of_ok {e : Effect α} {a : α} (f : Session → α → Effect β) (h : e.answer = .ok a) :
    e.bind f = ⟨(f e.session a).session, e.sent ++ (f e.session a).sent,
      e.logged ++ (f e.session a).logged, (f e.session a).answer⟩ := by
  simp [bind, h]

theorem bind_of_error {e : Effect α} {x : SessionFault} (f : Session → α → Effect β)
    (h : e.answer = .error x) : e.bind f = ⟨e.session, e.sent, e.logged, .error x⟩ := by
  simp [bind, h]

/-- The state after two things is one that the second leaves, or that of the first if it fails. -/
theorem session_bind_cases (e : Effect α) (f : Session → α → Effect β) :
    (e.bind f).session = e.session ∨ ∃ a, (e.bind f).session = (f e.session a).session := by
  cases h : e.answer with
  | error x => exact Or.inl (by rw [bind_of_error f h])
  | ok a => exact Or.inr ⟨a, by rw [bind_of_ok f h]⟩

theorem session_bind_of_still (e : Effect α) {f : Session → α → Effect β}
    (h : ∀ s a, (f s a).session = s) : (e.bind f).session = e.session := by
  rcases session_bind_cases e f with hsession | ⟨a, hsession⟩
  · exact hsession
  · rw [hsession, h]

theorem answer_bind_congr {e e' : Effect α} {f f' : Session → α → Effect β}
    (h : e.answer = e'.answer)
    (hf : ∀ a, (f e.session a).answer = (f' e'.session a).answer) :
    (e.bind f).answer = (e'.bind f').answer := by
  cases hanswer : e.answer with
  | error x => rw [bind_of_error f hanswer, bind_of_error f' (h.symm.trans hanswer)]
  | ok a =>
    rw [bind_of_ok f hanswer, bind_of_ok f' (h.symm.trans hanswer)]
    exact hf a

end Effect

namespace Session

/-! ## Settings -/

/-- Two states with the same texts, kept parses and way to check documents. -/
structure SameTexts (s s' : Session) : Prop where
  texts : s'.texts = s.texts
  cache : s'.cache = s.cache
  validator : s'.validator = s.validator

namespace SameTexts

variable {s s' s'' : Session}

theorem refl (s : Session) : SameTexts s s :=
  ⟨rfl, rfl, rfl⟩

theorem trans (h : SameTexts s s') (h' : SameTexts s' s'') : SameTexts s s'' :=
  ⟨h'.texts.trans h.texts, h'.cache.trans h.cache, h'.validator.trans h.validator⟩

theorem bind {α β : Type} {e : Effect α} {f : Session → α → Effect β}
    (h : SameTexts s e.session) (hf : ∀ s a, SameTexts s (f s a).session) :
    SameTexts s (e.bind f).session := by
  rcases Effect.session_bind_cases e f with hsession | ⟨a, hsession⟩
  · rw [hsession]
    exact h
  · rw [hsession]
    exact h.trans (hf e.session a)

end SameTexts

theorem sameTexts_loadSchema (fs : Files) (s : Session) :
    SameTexts s (s.loadSchema fs).session := by
  unfold loadSchema
  by_cases hpath : s.settings.schemaPath.isTrue = true
  · rw [if_pos hpath]
    cases hload : Graph.load fs s.settings.schemaPath.plainText with
    | ok loaded =>
      simp only [hload]
      exact ⟨rfl, rfl, rfl⟩
    | error f =>
      simp only [hload]
      by_cases htold : isTolerated f = true
      · rw [if_pos htold]
        exact SameTexts.refl s
      · rw [if_neg htold]
        exact SameTexts.refl s
  · rw [if_neg hpath]
    exact SameTexts.refl s

theorem sameTexts_apply (fs : Files) (settings : Settings) (s : Session) :
    SameTexts s (s.apply fs settings).session := by
  unfold apply
  cases hlevel : levelAfter? s.level settings.logLevel with
  | none => exact ⟨rfl, rfl, rfl⟩
  | some level =>
    by_cases hkeeps :
        (Value.same settings.schemaPath s.settings.schemaPath && s.graph.isSome) = true
    · simp only [hkeeps]
      exact ⟨rfl, rfl, rfl⟩
    · have hset : SameTexts s { s with settings, level, graph := none } := ⟨rfl, rfl, rfl⟩
      simp only [hkeeps]
      exact hset.trans (sameTexts_loadSchema fs _)

theorem sameTexts_reload (fs : Files) (root : Option String) (options : Value) (s : Session) :
    SameTexts s (s.reload fs root options).session := by
  cases hload : Settings.load fs root options s.overrides with
  | mk records settings =>
    simp only [reload, hload]
    refine SameTexts.bind (SameTexts.refl s) ?_
    intro s' _
    cases settings with
    | error f => exact SameTexts.refl s'
    | ok settings => exact sameTexts_apply fs settings s'

theorem sameTexts_configure (fs : Files) (overrides : Value) (s : Session) :
    SameTexts s (s.configure fs overrides).session := by
  have hset : SameTexts s { s with overrides } := ⟨rfl, rfl, rfl⟩
  exact hset.trans (sameTexts_reload fs none (.map []) _)

theorem sameTexts_openWorkspace (fs : Files) (rootUri : Option String) (options : Value)
    (s : Session) : SameTexts s (s.openWorkspace fs rootUri options).session := by
  unfold openWorkspace
  cases Uri.rootPath rootUri with
  | error f => exact SameTexts.refl s
  | ok root => exact sameTexts_reload fs root options s

/-! ## Reading a text -/

def request (s : Session) (uri : String) (t : OpenText) : CacheRequest :=
  ⟨uri, t.version, t.text, s.settings.customTags, s.graph.isSome⟩

theorem parsed_of_closed {s : Session} {uri : String} (h : s.texts.lookup uri = none) :
    s.parsed uri = Effect.pure s none := by
  simp [parsed, h]

theorem parsed_of_open {s : Session} {uri : String} {t : OpenText}
    (h : s.texts.lookup uri = some t) :
    s.parsed uri = ⟨{ s with cache := (s.cache.get (s.request uri t)).2 }, [], [],
      ((s.cache.get (s.request uri t)).1.map some).mapError SessionFault.read⟩ := by
  cases hget : s.cache.get (s.request uri t) with
  | mk answer cache =>
    unfold request at hget
    cases answer with
    | error f => simp [parsed, h, hget, Effect.fail, Except.map, Except.mapError]
    | ok documents => simp [parsed, h, hget, Effect.pure, Except.map, Except.mapError]

/-- Reading a text changes the kept parses only. -/
theorem session_parsed (uri : String) (s : Session) :
    (s.parsed uri).session = { s with cache := (s.parsed uri).session.cache } := by
  cases h : s.texts.lookup uri with
  | none => rw [parsed_of_closed h, Effect.pure]
  | some t => rw [parsed_of_open h]

/-! ## Questions -/

@[simp]
theorem session_schemaDiagnostics (uri : String) (g : Graph) (b : Text.Lines)
    (ds : List Document) (s : Session) : (schemaDiagnostics uri g b ds s).session = s := by
  induction ds generalizing s with
  | nil => rfl
  | cons d rest ih =>
    rw [schemaDiagnostics]
    cases hcheck : s.validator g d with
    | error f =>
      by_cases hdefect : f.message?.isSome = true
      · simp only [hdefect, if_true]
        exact Effect.session_bind_of_still _ fun s _ => ih s
      · simp only [hdefect]
        rfl
    | ok report =>
      simp only
      cases hfound : report.findings.mapM (SchemaFinding.diagnostic? b) with
      | none => rfl
      | some found =>
        refine (Effect.session_bind_of_still _ ?_).trans (ih s)
        intro s more
        rfl

@[simp]
theorem session_diagnostics (uri : String) (s : Session) :
    (s.diagnostics uri).session = (s.parsed uri).session := by
  refine Effect.session_bind_of_still _ ?_
  intro s documents
  cases documents with
  | none => rfl
  | some set =>
    simp only
    cases hgraph : s.graph with
    | none => rfl
    | some g =>
      by_cases hvalidate : s.settings.validate = true
      · simp only [hvalidate, if_true]
        refine (Effect.session_bind_of_still _ ?_).trans (session_schemaDiagnostics uri g _ _ s)
        intro s more
        rfl
      · simp only [hvalidate]
        rfl

@[simp]
theorem session_publish (uri : String) (s : Session) :
    (s.publish uri).session = (s.parsed uri).session := by
  refine (Effect.session_bind_of_still _ ?_).trans (session_diagnostics uri s)
  intro s found
  rfl

@[simp]
theorem session_resolveNode (uri : String) (line column : Int) (s : Session) :
    (s.resolveNode uri line column).session = (s.parsed uri).session := by
  refine Effect.session_bind_of_still _ ?_
  intro s documents
  cases documents with
  | none => rfl
  | some set =>
    simp only
    cases hinfo : set.describeAt line column with
    | none => rfl
    | some info => rfl

/-- The texts are read in turn, also after one for which this fails. -/
@[simp]
theorem session_republish (uris : List String) (s : Session) :
    (s.republish uris).session = uris.foldl (fun s uri => (s.parsed uri).session) s := by
  induction uris generalizing s with
  | nil => rfl
  | cons uri rest ih =>
    rw [List.foldl_cons, ← session_publish, ← ih, republish]
    cases hanswer : (s.publish uri).answer with
    | ok u => simp [Effect.bind, hanswer]
    | error f => simp [Effect.bind]

/-- A change of the configuration installs settings. If this does not fail, the open texts are read
again. -/
theorem session_changeConfiguration {fs : Files} {payload : Value} {s : Session}
    {new : Option Settings} (hnew : s.settings.configured? fs.homes payload = .ok new) :
    ∃ uris, (s.changeConfiguration fs payload).session =
      ((s.apply fs (new.getD s.settings)).session.republish uris).session := by
  rw [changeConfiguration, hnew]
  rcases Effect.session_bind_cases (s.apply fs (new.getD s.settings))
    fun s _ => s.republish (s.texts.map (·.1)) with hsession | ⟨u, hsession⟩
  · exact ⟨[], hsession⟩
  · exact ⟨_, hsession⟩

/-! ## What diagnostics depend on -/

theorem answer_schemaDiagnostics_congr (uri : String) (g : Graph) (b : Text.Lines)
    (ds : List Document) {s s' : Session} (h : s.validator = s'.validator) :
    (schemaDiagnostics uri g b ds s).answer = (schemaDiagnostics uri g b ds s').answer := by
  induction ds with
  | nil => rfl
  | cons d rest ih =>
    rw [schemaDiagnostics, schemaDiagnostics, h]
    cases hcheck : s'.validator g d with
    | error f =>
      by_cases hdefect : f.message?.isSome = true
      · simp only [hdefect, if_true]
        exact Effect.answer_bind_congr rfl fun _ => ih
      · simp only [hdefect]
        rfl
    | ok report =>
      simp only
      cases hfound : report.findings.mapM (SchemaFinding.diagnostic? b) with
      | none => rfl
      | some found => exact Effect.answer_bind_congr ih fun _ => rfl

/-- Diagnostics depend on what is read, the graph, the settings and the check of documents. -/
theorem answer_diagnostics_congr {uri : String} {s s' : Session}
    (hparsed : (s.parsed uri).answer = (s'.parsed uri).answer) (hgraph : s.graph = s'.graph)
    (hsettings : s.settings = s'.settings) (hvalidator : s.validator = s'.validator) :
    (s.diagnostics uri).answer = (s'.diagnostics uri).answer := by
  refine Effect.answer_bind_congr hparsed ?_
  intro documents
  rw [session_parsed uri s, session_parsed uri s']
  cases documents with
  | none => rfl
  | some set =>
    simp only [hgraph, hsettings]
    cases hschema : s'.graph with
    | none => rfl
    | some g =>
      by_cases hvalidate : s'.settings.validate = true
      · simp only [hvalidate, if_true]
        exact Effect.answer_bind_congr
          (answer_schemaDiagnostics_congr uri g _ _ hvalidator) fun _ => rfl
      · simp only [hvalidate]
        rfl

end Session
end YamlServer
