import YamlServer.Proofs.Outcome
import YamlServer.Proofs.Session.History
import YamlServer.Proofs.Value

/-!
# The schema of a session

The settings of a session name a schema, and the session holds its graph. Installing settings keeps
the graph if the path stays and loads it anew otherwise; a file that cannot be used is told of or
makes the message fail, and leaves no graph in both cases.

The graph of a session is therefore that of its settings, with one exception: a log level that
cannot be written makes the message fail after the settings are installed and before the graph is
looked at, so that the graph of earlier settings stays.

* `Session.graph_run`: what the graph is after any messages.
-/

namespace YamlServer

open Outcome

/-! ## Settings -/

namespace Settings

/-- The graph of the schema that settings name; none if they name none, or one that cannot be
loaded. -/
def schema? (fs : Files) (s : Settings) : Option Graph :=
  if s.schemaPath.isTrue then (Graph.load fs s.schemaPath.plainText).toOption.map (·.1) else none

theorem schema?_of_load {fs : Files} {s : Settings} {g : Graph} {records : List Log.Record}
    (hpath : s.schemaPath.isTrue = true)
    (hload : Graph.load fs s.schemaPath.plainText = .ok (g, records)) :
    s.schema? fs = some g := by
  simp [schema?, hpath, hload, Except.toOption]

theorem schema?_of_fault {fs : Files} {s : Settings} {f : Graph.LoadFault}
    (hload : Graph.load fs s.schemaPath.plainText = .error f) : s.schema? fs = none := by
  simp [schema?, hload, Except.toOption]

theorem schema?_eq_none_iff {fs : Files} {s : Settings} :
    s.schema? fs = none ↔
      s.schemaPath.isTrue = false ∨ ∃ f, Graph.load fs s.schemaPath.plainText = .error f := by
  cases hpath : s.schemaPath.isTrue with
  | false => simp [schema?, hpath]
  | true =>
    cases hload : Graph.load fs s.schemaPath.plainText with
    | ok loaded => simp [schema?, hpath, hload, Except.toOption]
    | error f => simp [schema?, hload, Except.toOption]

/-- A schema path that counts is a text. -/
def PathIsText (s : Settings) : Prop :=
  s.schemaPath.isTrue = true → ∃ path, s.schemaPath = .str path

/-- A log level that counts can be written. -/
def LevelIsWritable (s : Settings) : Prop :=
  s.logLevel.isTrue = true → s.logLevel.isWritable = true

instance (s : Settings) : Decidable s.LevelIsWritable :=
  inferInstanceAs (Decidable (s.logLevel.isTrue = true → s.logLevel.isWritable = true))

namespace PathIsText

variable {homes : List (String × String)} {base s s' : Settings}

theorem ofRoot (root : Option String) : (ofRoot root).PathIsText := by
  intro h
  cases h

theorem choose {c : Choice} {v : Value} (h : s.PathIsText)
    (hchoose : Settings.choose homes base c v s = .ok s') : s'.PathIsText := by
  cases c with
  | customTags =>
    rcases bind_eq_ok.1 hchoose with ⟨tags, -, hlast⟩
    cases hlast
    exact h
  | validate =>
    cases hchoose
    exact h
  | logLevel =>
    cases hchoose
    exact h
  | schemaPath =>
    rw [Settings.choose] at hchoose
    -- A path that counts for nothing is kept as it is; any other one is resolved to a text.
    split at hchoose
    · rename_i hfalse
      cases hchoose
      intro htrue
      simp [htrue] at hfalse
    · split at hchoose
      · cases hchoose
      · split at hchoose
        · cases hchoose
          exact fun _ => ⟨_, rfl⟩
        · cases hchoose

theorem chooseAll {members : List (Value × Value)} (h : s.PathIsText)
    (hchoose : Settings.chooseAll homes base members s = .ok s') : s'.PathIsText := by
  induction members generalizing s with
  | nil =>
    cases hchoose
    exact h
  | cons member rest ih =>
    unfold Settings.chooseAll at hchoose
    split at hchoose
    · exact ih h hchoose
    · rcases bind_eq_ok.1 hchoose with ⟨between, hfirst, hrest⟩
      exact ih (h.choose hfirst) hrest

theorem merge? {layer : Value} {new : Option Settings} (h : s.PathIsText)
    (hmerge : s.merge? homes layer = .ok new) : (new.getD s).PathIsText := by
  unfold Settings.merge? at hmerge
  split at hmerge
  · split at hmerge
    · rcases map_eq_ok.1 hmerge with ⟨s', hchoose, rfl⟩
      exact h.chooseAll hchoose
    · cases hmerge
  · cases hmerge
    exact h

theorem merged {layer : Value} (h : s.PathIsText) (hmerge : s.merged homes layer = .ok s') :
    s'.PathIsText := by
  rcases map_eq_ok.1 hmerge with ⟨new, hnew, rfl⟩
  exact h.merge? hnew

theorem load {fs : Files} {root : Option String} {options overrides : Value}
    (hload : (Settings.load fs root options overrides).2 = .ok s) : s.PathIsText := by
  rcases bind_eq_ok.1 hload with ⟨project, -, hproject⟩
  rcases bind_eq_ok.1 hproject with ⟨first, hfirst, hsecond⟩
  rcases bind_eq_ok.1 hsecond with ⟨second, hmerged, hlast⟩
  exact (((ofRoot root).merged hfirst).merged hmerged).merged hlast

theorem configured? {payload : Value} {new : Option Settings} (h : s.PathIsText)
    (hnew : s.configured? homes payload = .ok new) : (new.getD s).PathIsText := by
  unfold Settings.configured? at hnew
  split at hnew
  · exact h.merge? hnew
  · cases hnew
    exact h

end PathIsText
end Settings

namespace Session

/-! ## Installing settings -/

/-- The graph stays when settings are installed: there is one, and its path is the same. -/
def Keeps (settings : Settings) (s : Session) : Prop :=
  Value.same settings.schemaPath s.settings.schemaPath = true ∧ s.graph.isSome = true

def unloadable (path : String) : Log.Record :=
  ⟨.warning, logger, "_apply_settings: cannot load schema " ++ path⟩

/-- A level has no threshold if it counts and cannot be written. -/
theorem levelAfter?_cases (level : Nat) (settings : Settings) :
    (levelAfter? level settings.logLevel = none ∧ ¬ settings.LevelIsWritable) ∨
      ∃ level', levelAfter? level settings.logLevel = some level' ∧ settings.LevelIsWritable := by
  unfold levelAfter? Settings.LevelIsWritable
  cases htrue : settings.logLevel.isTrue with
  | false => simp
  | true => cases hwritable : settings.logLevel.isWritable <;> simp

/-- Installing settings fails because of the log level and leaves the graph alone, or keeps the
graph, or loads the schema of the new settings. -/
theorem apply_cases (fs : Files) (settings : Settings) (s : Session) :
    (¬ settings.LevelIsWritable ∧
        s.apply fs settings = Effect.fail { s with settings } (.settings .longNumeral)) ∨
      settings.LevelIsWritable ∧ ∃ level,
        (s.Keeps settings ∧ s.apply fs settings = Effect.pure { s with settings, level } ()) ∨
          (¬ s.Keeps settings ∧
            s.apply fs settings = loadSchema fs { s with settings, level, graph := none }) := by
  rcases levelAfter?_cases s.level settings with ⟨hlevel, hwritable⟩ | ⟨level, hlevel, hwritable⟩
  · exact Or.inl ⟨hwritable, by simp [apply, hlevel]⟩
  · refine Or.inr ⟨hwritable, level, ?_⟩
    by_cases hkeeps : s.Keeps settings
    · exact Or.inl ⟨hkeeps, by simp [apply, hlevel, hkeeps.1, hkeeps.2]⟩
    · have hnot :
          (Value.same settings.schemaPath s.settings.schemaPath && s.graph.isSome) ≠ true := by
        simpa [Keeps] using hkeeps
      exact Or.inr ⟨hkeeps, by simp [apply, hlevel, hnot]⟩

/-- Loading the schema of settings does nothing if they name none; otherwise it gives a graph, or a
warning, or a failure. -/
theorem loadSchema_cases (fs : Files) (s : Session) :
    (s.settings.schemaPath.isTrue = false ∧ s.loadSchema fs = Effect.pure s ()) ∨
      s.settings.schemaPath.isTrue = true ∧
        ((∃ g records, Graph.load fs s.settings.schemaPath.plainText = .ok (g, records) ∧
            s.loadSchema fs = Effect.log { s with graph := some g } records) ∨
          ∃ f, Graph.load fs s.settings.schemaPath.plainText = .error f ∧
            s.loadSchema fs =
              if isTolerated f then Effect.log s [unloadable s.settings.schemaPath.plainText]
              else Effect.fail s (.load f)) := by
  unfold loadSchema
  cases hpath : s.settings.schemaPath.isTrue with
  | false => exact Or.inl ⟨rfl, by simp⟩
  | true =>
    refine Or.inr ⟨rfl, ?_⟩
    cases hload : Graph.load fs s.settings.schemaPath.plainText with
    | ok loaded => exact Or.inl ⟨loaded.1, loaded.2, rfl, by simp [hload]⟩
    | error f => exact Or.inr ⟨f, rfl, by simp [hload, unloadable]⟩

/-- Loading leaves the settings, and where there was no graph, theirs. -/
theorem loadSchema_session (fs : Files) (s : Session) (hgraph : s.graph = none) :
    (s.loadSchema fs).session.settings = s.settings ∧
      (s.loadSchema fs).session.graph = s.settings.schema? fs := by
  rcases loadSchema_cases fs s with
    ⟨hpath, hrun⟩ | ⟨hpath, ⟨g, records, hload, hrun⟩ | ⟨f, hload, hrun⟩⟩
  · rw [hrun]
    exact ⟨rfl, hgraph.trans (Settings.schema?_eq_none_iff.2 (Or.inl hpath)).symm⟩
  · rw [hrun]
    exact ⟨rfl, (Settings.schema?_of_load hpath hload).symm⟩
  · have hnone : s.graph = s.settings.schema? fs :=
      hgraph.trans (Settings.schema?_of_fault hload).symm
    rw [hrun]
    split
    · exact ⟨rfl, hnone⟩
    · exact ⟨rfl, hnone⟩

@[simp]
theorem settings_apply (fs : Files) (settings : Settings) (s : Session) :
    (s.apply fs settings).session.settings = settings := by
  rcases apply_cases fs settings s with ⟨-, hrun⟩ | ⟨-, level, ⟨-, hrun⟩ | ⟨-, hrun⟩⟩
  · rw [hrun]
    rfl
  · rw [hrun]
    rfl
  · rw [hrun]
    exact (loadSchema_session fs _ rfl).1

/-- The graph after installing settings is the one before, or that of the settings; it is the one
before if the log level cannot be written. -/
theorem graph_apply (fs : Files) (settings : Settings) (s : Session) :
    ((s.apply fs settings).session.graph = s.graph ∨
        (s.apply fs settings).session.graph = settings.schema? fs) ∧
      (¬ settings.LevelIsWritable → (s.apply fs settings).session.graph = s.graph) := by
  rcases apply_cases fs settings s with ⟨-, hrun⟩ | ⟨hwritable, level, ⟨-, hrun⟩ | ⟨-, hrun⟩⟩
  · rw [hrun]
    exact ⟨Or.inl rfl, fun _ => rfl⟩
  · rw [hrun]
    exact ⟨Or.inl rfl, fun _ => rfl⟩
  · rw [hrun]
    exact ⟨Or.inr (loadSchema_session fs _ rfl).2, fun h => absurd hwritable h⟩

/-! ## The graph of the settings -/

/-- The graph of a session is that of its settings. -/
structure Paired (fs : Files) (s : Session) : Prop where
  path : s.settings.PathIsText
  graph : s.graph = s.settings.schema? fs

theorem Paired.start (fs : Files) : Paired fs start :=
  ⟨Settings.PathIsText.ofRoot none, rfl⟩

/-- The graph is kept for a path that is the same text, so that it is that of the new settings. -/
theorem Paired.graph_of_keeps {fs : Files} {s : Session} {settings : Settings} (h : Paired fs s)
    (hkeeps : s.Keeps settings) : s.graph = settings.schema? fs := by
  rcases hkeeps with ⟨hsame, hgraph⟩
  -- There is a graph, so the path of the session counts and is a text.
  have htrue : s.settings.schemaPath.isTrue = true := by
    rw [h.graph] at hgraph
    by_contra hfalse
    have hnone : s.settings.schema? fs = none :=
      Settings.schema?_eq_none_iff.2 (Or.inl (Bool.eq_false_iff.2 hfalse))
    simp [hnone] at hgraph
  rcases h.path htrue with ⟨path, hpath⟩
  have hnew : settings.schemaPath = .str path := by
    rw [hpath] at hsame
    exact Value.same_str_right.1 hsame
  calc
    s.graph = s.settings.schema? fs := h.graph
    _ = settings.schema? fs := by simp [Settings.schema?, hpath, hnew]

theorem Paired.apply {fs : Files} {s : Session} {settings : Settings} (h : Paired fs s)
    (hpath : settings.PathIsText) (hlevel : settings.LevelIsWritable) :
    Paired fs (s.apply fs settings).session := by
  have hsettings := settings_apply fs settings s
  refine ⟨by rwa [hsettings], ?_⟩
  rw [hsettings]
  rcases apply_cases fs settings s with ⟨hwritable, -⟩ | ⟨-, level, ⟨hkeeps, hrun⟩ | ⟨-, hrun⟩⟩
  · exact absurd hlevel hwritable
  · rw [hrun]
    exact h.graph_of_keeps hkeeps
  · rw [hrun]
    exact (loadSchema_session fs _ rfl).2

/-! ## Messages -/

/-- Two states with the same settings and the same graph. -/
structure SameSchema (s s' : Session) : Prop where
  settings : s'.settings = s.settings
  graph : s'.graph = s.graph

namespace SameSchema

variable {s s' s'' : Session}

theorem refl (s : Session) : SameSchema s s :=
  ⟨rfl, rfl⟩

theorem trans (h : SameSchema s s') (h' : SameSchema s' s'') : SameSchema s s'' :=
  ⟨h'.settings.trans h.settings, h'.graph.trans h.graph⟩

theorem parsed (uri : String) (s : Session) : SameSchema s (s.parsed uri).session := by
  rw [session_parsed]
  exact ⟨rfl, rfl⟩

theorem republish (uris : List String) (s : Session) :
    SameSchema s (s.republish uris).session := by
  rw [session_republish]
  induction uris generalizing s with
  | nil => exact refl s
  | cons uri rest ih => exact (parsed uri s).trans (ih (s.parsed uri).session)

theorem openText (uri : String) (t : OpenText) (s : Session) :
    SameSchema s (s.openText uri t).session := by
  have hput : SameSchema s { s with texts := putText uri t s.texts } := ⟨rfl, rfl⟩
  rw [Session.openText, session_publish]
  exact hput.trans (parsed uri _)

end SameSchema

/-- A message installs settings in a state that differs from the one before in neither settings nor
graph, and nothing after that touches these. -/
def Installs (fs : Files) (s : Session) (settings : Settings) (after : Session) : Prop :=
  ∃ s', SameSchema s s' ∧ SameSchema (s'.apply fs settings).session after

/-- What a message can do to settings and graph: nothing, or install settings. -/
def Changes (fs : Files) (s after : Session) : Prop :=
  SameSchema s after ∨
    ∃ settings, (s.settings.PathIsText → settings.PathIsText) ∧ Installs fs s settings after

theorem Changes.of_sameSchema {fs : Files} {s s' after : Session} (h : SameSchema s s')
    (hchanges : Changes fs s' after) : Changes fs s after := by
  rcases hchanges with hsame | ⟨settings, hpath, s'', hsame, hafter⟩
  · exact Or.inl (h.trans hsame)
  · refine Or.inr ⟨settings, ?_, s'', h.trans hsame, hafter⟩
    rwa [h.settings] at hpath

theorem changes_reload (fs : Files) (root : Option String) (options : Value) (s : Session) :
    Changes fs s (s.reload fs root options).session := by
  unfold reload
  cases hload : Settings.load fs root options s.overrides with
  | mk records answer =>
    have hlog : (Effect.log s records).answer = .ok () := rfl
    simp only [Effect.bind_of_ok _ hlog]
    cases answer with
    | error f => exact Or.inl (SameSchema.refl s)
    | ok settings =>
      have hpath : settings.PathIsText := Settings.PathIsText.load (congrArg Prod.snd hload)
      exact Or.inr ⟨settings, fun _ => hpath, s, SameSchema.refl s, SameSchema.refl _⟩

end Session

/-- A message that looks at files sees the given ones. -/
def Message.Sees (fs : Files) : Message → Prop
  | .configure fs' _ | .openWorkspace fs' _ _ | .changeConfiguration fs' _ => fs' = fs
  | _ => True

namespace Session

theorem changes_receive {fs : Files} {m : Message} (hsees : m.Sees fs) (s : Session) :
    Changes fs s (s.receive m) := by
  cases m with
  | configure fs' overrides =>
    cases hsees
    have hset : SameSchema s { s with overrides } := ⟨rfl, rfl⟩
    exact Changes.of_sameSchema hset (changes_reload fs none (.map []) _)
  | openWorkspace fs' rootUri options =>
    cases hsees
    rw [receive, openWorkspace]
    cases Uri.rootPath rootUri with
    | error f => exact Or.inl (SameSchema.refl s)
    | ok root => exact changes_reload fs root options s
  | changeConfiguration fs' payload =>
    cases hsees
    rw [receive]
    cases hnew : s.settings.configured? fs.homes payload with
    | error f =>
      rw [changeConfiguration, hnew]
      exact Or.inl (SameSchema.refl s)
    | ok new =>
      rcases session_changeConfiguration hnew with ⟨uris, hsession⟩
      refine Or.inr ⟨new.getD s.settings, fun h => h.configured? hnew, s, SameSchema.refl s, ?_⟩
      rw [hsession]
      exact SameSchema.republish _ _
  | openText uri t => exact Or.inl (SameSchema.openText uri t s)
  | changeText uri version texts =>
    rw [receive, changeText]
    cases texts.getLast? with
    | none => exact Or.inl (SameSchema.refl s)
    | some text => exact Or.inl (SameSchema.openText uri ⟨version, text⟩ s)
  | closeText uri => exact Or.inl ⟨rfl, rfl⟩
  | resolveNode uri line column =>
    rw [receive, session_resolveNode]
    exact Or.inl (SameSchema.parsed uri s)

theorem Paired.of_sameSchema {fs : Files} {s s' : Session} (h : Paired fs s)
    (hsame : SameSchema s s') : Paired fs s' := by
  refine ⟨?_, ?_⟩
  · rw [hsame.settings]
    exact h.path
  · rw [hsame.settings, hsame.graph]
    exact h.graph

/-- A message whose settings have a log level that can be written leaves the graph of the
settings. -/
theorem Paired.receive {fs : Files} {s : Session} {m : Message} (h : Paired fs s)
    (hsees : m.Sees fs) (hlevel : (s.receive m).settings.LevelIsWritable) :
    Paired fs (s.receive m) := by
  rcases changes_receive hsees s with hsame | ⟨settings, hpath, s', hsame, hafter⟩
  · exact h.of_sameSchema hsame
  · have hsettings : (s.receive m).settings = settings :=
      hafter.settings.trans (settings_apply fs settings s')
    rw [hsettings] at hlevel
    have happly := (h.of_sameSchema hsame).apply (hpath h.path) hlevel
    exact happly.of_sameSchema hafter

/-- The graph after a message is the one before, or that of the settings after it; it is the one
before if their log level cannot be written. -/
theorem graph_receive {fs : Files} {m : Message} (hsees : m.Sees fs) (s : Session) :
    ((s.receive m).graph = s.graph ∨ (s.receive m).graph = (s.receive m).settings.schema? fs) ∧
      (¬ (s.receive m).settings.LevelIsWritable → (s.receive m).graph = s.graph) := by
  rcases changes_receive hsees s with hsame | ⟨settings, -, s', hsame, hafter⟩
  · exact ⟨Or.inl hsame.graph, fun _ => hsame.graph⟩
  · have happly := graph_apply fs settings s'
    rw [hafter.graph, hafter.settings, settings_apply, ← hsame.graph]
    exact happly

/-! ## Runs -/

theorem paired_run {fs : Files} {ms : List Message} (hsees : ∀ m ∈ ms, m.Sees fs)
    (hlevels : ∀ before, before <+: ms → (run before).settings.LevelIsWritable) :
    Paired fs (run ms) := by
  induction ms using List.reverseRecOn with
  | nil => exact Paired.start fs
  | append_singleton ms m ih =>
    have hbefore := ih (fun m' hm' => hsees m' (List.mem_append_left _ hm'))
      fun before hinit => hlevels before (hinit.trans (List.prefix_append ms [m]))
    have hlast := hlevels (ms ++ [m]) (List.prefix_refl _)
    rw [run_concat] at hlast ⊢
    exact hbefore.receive (hsees m (by simp)) hlast

/-- Whatever the log levels, the graph is that of settings which the server had at some time. -/
theorem exists_settings_run {fs : Files} {ms : List Message} (hsees : ∀ m ∈ ms, m.Sees fs) :
    ∃ before, before <+: ms ∧ (run ms).graph = (run before).settings.schema? fs := by
  induction ms using List.reverseRecOn with
  | nil => exact ⟨[], List.prefix_refl _, rfl⟩
  | append_singleton ms m ih =>
    rcases ih fun m' hm' => hsees m' (List.mem_append_left _ hm') with ⟨before, hbefore, hgraph⟩
    have hstep := (graph_receive (hsees m (by simp)) (run ms)).1
    rw [← run_concat] at hstep
    rcases hstep with hold | hnew
    · exact ⟨before, hbefore.trans (List.prefix_append ms [m]), hold.trans hgraph⟩
    · exact ⟨ms ++ [m], List.prefix_refl _, hnew⟩

/-- With files that do not change, the graph of a server is that of settings it had at some time. If
all log levels so far can be written, it is that of the current settings, and there is none exactly
if they name no schema or one that cannot be loaded. A message with a level that cannot be written
leaves the graph as it is, so that it fits the new settings only if theirs is the same. -/
theorem graph_run {fs : Files} {ms : List Message} (hsees : ∀ m ∈ ms, m.Sees fs) :
    (∃ before, before <+: ms ∧ (run ms).graph = (run before).settings.schema? fs) ∧
      ((∀ before, before <+: ms → (run before).settings.LevelIsWritable) →
        (run ms).graph = (run ms).settings.schema? fs ∧
          ((run ms).graph = none ↔ (run ms).settings.schemaPath.isTrue = false ∨
            ∃ f, Graph.load fs (run ms).settings.schemaPath.plainText = .error f) ∧
          ∀ m, m.Sees fs →
            ((run (ms ++ [m])).graph = (run (ms ++ [m])).settings.schema? fs ↔
              (run (ms ++ [m])).settings.LevelIsWritable ∨
                (run ms).settings.schema? fs = (run (ms ++ [m])).settings.schema? fs)) := by
  refine ⟨exists_settings_run hsees, ?_⟩
  intro hlevels
  have hpaired := paired_run hsees hlevels
  refine ⟨hpaired.graph, ?_, ?_⟩
  · rw [hpaired.graph]
    exact Settings.schema?_eq_none_iff
  · intro m hm
    rw [run_concat]
    by_cases hlevel : ((run ms).receive m).settings.LevelIsWritable
    · exact iff_of_true (hpaired.receive hm hlevel).graph (Or.inl hlevel)
    · rw [(graph_receive hm (run ms)).2 hlevel, hpaired.graph]
      simp [hlevel]

end Session

def Files.ofTexts (table : List (List String × List Char)) : Files :=
  ⟨⟨1, []⟩, [], table.map fun (parts, cs) => (parts, cs.map fun c => UInt8.ofNat c.toNat)⟩

def schemaFiles : Files :=
  .ofTexts [(["g.json"], "\x7b\"k\": \x7b\x7d\x7d".toList), (["torn.json"], "\x7b".toList)]

def schemaChoices : List Message :=
  [.openWorkspace schemaFiles none (.map [(.str "schema", .str "/g.json")]),
   .changeConfiguration schemaFiles
     (.map [(.str "yaml", .map [(.str "schema", .str "/torn.json")])]),
   .changeConfiguration schemaFiles (.map [(.str "yaml", .map [(.str "schema", .str "/g.json")])])]

/-- A schema, and a workspace with a log level of more digits than can be written. -/
def longLevelFiles : Files :=
  .ofTexts [(["g.json"], "\x7b\"k\": \x7b\x7d\x7d".toList),
    (["w", ".yamlsp.toml"], "log_level = 0x".toList ++ List.replicate 3600 'f')]

namespace Session

/-- The graph comes, goes and comes back with the settings. -/
theorem graph_run_schemaChoices :
    (∀ m ∈ schemaChoices, m.Sees schemaFiles) ∧
      (∀ before, before <+: schemaChoices → (run before).settings.LevelIsWritable) ∧
      (run schemaChoices).graph = (run schemaChoices).settings.schema? schemaFiles ∧
      (run (schemaChoices.take 1)).graph.isSome = true ∧
      (run (schemaChoices.take 2)).graph.isSome = false ∧
      (run schemaChoices).graph.isSome = true := by
  have hsees : ∀ m ∈ schemaChoices, m.Sees schemaFiles := by
    simp [schemaChoices, Message.Sees]
  have htakes : ∀ n ≤ 3, (run (schemaChoices.take n)).settings.LevelIsWritable := by
    decide +kernel
  have hlevels : ∀ before, before <+: schemaChoices → (run before).settings.LevelIsWritable := by
    intro before hbefore
    rw [List.prefix_iff_eq_take.1 hbefore]
    exact htakes _ hbefore.length_le
  exact ⟨hsees, hlevels, ((graph_run hsees).2 hlevels).1, by decide +kernel, by decide +kernel,
    by decide +kernel⟩

/-- A workspace is opened with a schema, and another one whose log level cannot be written: its
settings name no schema, and the graph of the first one is still there. -/
theorem graph_run_longLevel :
    (run [.openWorkspace longLevelFiles none (.map [(.str "schema", .str "/g.json")]),
        .openWorkspace longLevelFiles (some "/w") (.map [])]).settings.schemaPath.isTrue = false ∧
      (run [.openWorkspace longLevelFiles none (.map [(.str "schema", .str "/g.json")]),
        .openWorkspace longLevelFiles (some "/w") (.map [])]).graph.isSome = true := by
  decide +kernel

end Session
end YamlServer
