import YamlServer.Proofs.Session.Schema
import YamlServer.Proofs.Settings.ProjectFile

/-!
# Settings over a whole session

A client opens a workspace, and later on changes its configuration as often as it likes. The
settings of the server are at any time what the last mentions say, in the project file, on the
command line, in the options of the client, and in the changes that came since. What was chosen
before the workspace was opened is forgotten, the command line apart.

* `Session.overrides_receive`: only the command line sets the choices of the command line.
* `Session.settings_run`: the settings after any messages.
-/

namespace YamlServer

open Outcome

namespace Settings

/-- The members of the section `yaml` of a payload; none if there is no such section. -/
def payloadMembers (payload : Value) : List (Value × Value) :=
  membersOf ((Value.get? (membersOf payload) "yaml").getD .null)

theorem configured?_eq (homes : List (String × String)) (s : Settings) (payload : Value) :
    (s.configured? homes payload).map (·.getD s) =
      s.merged homes (.map (payloadMembers payload)) := by
  cases payload with
  | map members =>
    rw [configured?, optionsLayer_eq]
    rfl
  | _ => rfl

end Settings

namespace Message

def layer? : Message → Option (List (Value × Value))
  | .changeConfiguration _ payload => some (Settings.payloadMembers payload)
  | _ => none

/-- Messages that open no workspace and come from no command line. The home directories that they
see are the given ones. -/
def Live (homes : List (String × String)) : Message → Prop
  | .configure _ _ | .openWorkspace _ _ _ => False
  | .changeConfiguration fs _ => fs.homes = homes
  | _ => True

end Message

namespace Session

/-! ## The command line -/

@[simp]
theorem overrides_loadSchema (fs : Files) (s : Session) :
    (s.loadSchema fs).session.overrides = s.overrides := by
  rcases loadSchema_cases fs s with ⟨-, hrun⟩ | ⟨-, ⟨g, records, -, hrun⟩ | ⟨f, -, hrun⟩⟩
  · rw [hrun]
    rfl
  · rw [hrun]
    rfl
  · rw [hrun]
    split
    · rfl
    · rfl

@[simp]
theorem overrides_apply (fs : Files) (settings : Settings) (s : Session) :
    (s.apply fs settings).session.overrides = s.overrides := by
  rcases apply_cases fs settings s with ⟨-, hrun⟩ | ⟨-, level, ⟨-, hrun⟩ | ⟨-, hrun⟩⟩
  · rw [hrun]
    rfl
  · rw [hrun]
    rfl
  · simp [hrun]

theorem reload_of_load {fs : Files} {root : Option String} {options : Value} {s : Session}
    {records : List Log.Record} {settings : Settings}
    (h : Settings.load fs root options s.overrides = (records, .ok settings)) :
    (s.reload fs root options).session = (s.apply fs settings).session := by
  rw [reload, h]
  rfl

@[simp]
theorem overrides_reload (fs : Files) (root : Option String) (options : Value) (s : Session) :
    (s.reload fs root options).session.overrides = s.overrides := by
  cases hload : Settings.load fs root options s.overrides with
  | mk records answer =>
    cases answer with
    | error f =>
      rw [reload, hload]
      rfl
    | ok settings =>
      simp [reload_of_load hload]

@[simp]
theorem overrides_parsed (uri : String) (s : Session) :
    (s.parsed uri).session.overrides = s.overrides := by
  rw [session_parsed]

@[simp]
theorem overrides_republish (uris : List String) (s : Session) :
    (s.republish uris).session.overrides = s.overrides := by
  rw [session_republish]
  induction uris generalizing s with
  | nil => rfl
  | cons uri rest ih => exact (ih (s.parsed uri).session).trans (overrides_parsed uri s)

@[simp]
theorem overrides_openText (uri : String) (t : OpenText) (s : Session) :
    (s.openText uri t).session.overrides = s.overrides := by
  simp [openText]

theorem overrides_receive {m : Message} (hm : ∀ fs overrides, m ≠ .configure fs overrides)
    (s : Session) : (s.receive m).overrides = s.overrides := by
  cases m with
  | configure fs overrides => exact absurd rfl (hm fs overrides)
  | openWorkspace fs rootUri options =>
    rw [receive, openWorkspace]
    cases Uri.rootPath rootUri with
    | error f => rfl
    | ok root => exact overrides_reload fs root options s
  | changeConfiguration fs payload =>
    cases hnew : s.settings.configured? fs.homes payload with
    | error f =>
      rw [receive, changeConfiguration, hnew]
      rfl
    | ok new =>
      rcases session_changeConfiguration hnew with ⟨uris, hsession⟩
      rw [receive, hsession]
      exact (overrides_republish _ _).trans (overrides_apply fs _ s)
  | openText uri t => simp [receive]
  | changeText uri version texts =>
    rw [receive, changeText]
    cases texts.getLast? with
    | none => rfl
    | some text => exact overrides_openText uri ⟨version, text⟩ s
  | closeText uri => rfl
  | resolveNode uri line column =>
    simp [receive]

/-- The choices of the command line stay until it makes others. -/
theorem overrides_run {before between : List Message} {fs : Files} {overrides : Value}
    (hbetween : ∀ m ∈ between, ∀ fs overrides, m ≠ .configure fs overrides) :
    (run (before ++ .configure fs overrides :: between)).overrides = overrides := by
  induction between using List.reverseRecOn with
  | nil =>
    simp [receive, configure]
  | append_singleton between m ih =>
    have hrest := ih fun m' hm' => hbetween m' (List.mem_append_left _ hm')
    rw [← List.cons_append, ← List.append_assoc, run_concat]
    exact (overrides_receive (hbetween m (by simp)) _).trans hrest

/-! ## Live changes -/

section Live

variable {homes : List (String × String)} {root : String}
  {layers : List (List (Value × Value))} {s : Session} {m : Message}

/-- The settings after a change of the configuration are those that it makes. -/
theorem settings_changeConfiguration {fs : Files} {payload : Value} {settings : Settings}
    (h : s.settings.merged fs.homes (.map (Settings.payloadMembers payload)) = .ok settings) :
    (s.changeConfiguration fs payload).session.settings = settings := by
  rw [← Settings.configured?_eq] at h
  rcases map_eq_ok.1 h with ⟨new, hnew, rfl⟩
  rcases session_changeConfiguration hnew with ⟨uris, hsession⟩
  rw [hsession]
  exact (SameSchema.republish _ _).settings.trans (settings_apply fs _ s)

/-- A message about texts leaves the settings. -/
theorem settings_receive (hlive : m.Live homes) (hlayer : m.layer? = none) (s : Session) :
    (s.receive m).settings = s.settings := by
  cases m with
  | configure fs overrides => cases hlive
  | openWorkspace fs rootUri options => cases hlive
  | changeConfiguration fs payload => cases hlayer
  | openText uri t => exact (SameSchema.openText uri t s).settings
  | changeText uri version texts =>
    rw [receive, changeText]
    cases texts.getLast? with
    | none => rfl
    | some text => exact (SameSchema.openText uri ⟨version, text⟩ s).settings
  | closeText uri => rfl
  | resolveNode uri line column =>
    rw [receive, session_resolveNode]
    exact (SameSchema.parsed uri s).settings

/-- Settings that follow layers follow that of a live message as well. -/
theorem follows_receive (h : Settings.Follows homes root layers s.settings) (hne : root ≠ "")
    (hlive : m.Live homes) (haccepts : ∀ layer ∈ m.layer?, Settings.Accepts homes layer) :
    Settings.Follows homes root (layers ++ m.layer?.toList) (s.receive m).settings := by
  cases hlayer : m.layer? with
  | none =>
    rw [settings_receive hlive hlayer, Option.toList_none, List.append_nil]
    exact h
  | some layer =>
    rw [hlayer] at haccepts
    rcases h.merged hne (haccepts layer rfl) with ⟨settings, hmerged, hfollows⟩
    cases m with
    | changeConfiguration fs payload =>
      cases hlayer
      cases hlive
      rw [receive, settings_changeConfiguration hmerged]
      exact hfollows
    | _ => cases hlayer

theorem follows_foldl_receive {ms : List Message}
    (h : Settings.Follows homes root layers s.settings) (hne : root ≠ "")
    (hlive : ∀ m ∈ ms, m.Live homes)
    (haccepts : ∀ layer ∈ ms.filterMap Message.layer?, Settings.Accepts homes layer) :
    Settings.Follows homes root (layers ++ ms.filterMap Message.layer?)
      (ms.foldl receive s).settings := by
  induction ms generalizing layers s with
  | nil => simpa using h
  | cons m rest ih =>
    have hlayers : (m :: rest).filterMap Message.layer? =
        m.layer?.toList ++ rest.filterMap Message.layer? := by
      cases hlayer : m.layer? with
      | none => simp [hlayer]
      | some layer => simp [hlayer]
    rw [hlayers] at haccepts ⊢
    have hfirst := follows_receive h hne (hlive m List.mem_cons_self) fun layer hlayer =>
      haccepts layer (List.mem_append_left _ (Option.mem_toList.2 hlayer))
    rw [← List.append_assoc]
    exact ih hfirst (fun m' hm' => hlive m' (List.mem_cons_of_mem _ hm')) fun layer hlayer =>
      haccepts layer (List.mem_append_right _ hlayer)

end Live

/-! ## Sessions -/

theorem settings_openWorkspace {fs : Files} {rootUri root : Option String} {options : Value}
    {s : Session} {records : List Log.Record} {settings : Settings}
    (hroot : Uri.rootPath rootUri = .ok root)
    (hload : Settings.load fs root options s.overrides = (records, .ok settings)) :
    (s.openWorkspace fs rootUri options).session.settings = settings := by
  rw [openWorkspace, hroot]
  exact (congrArg Session.settings (reload_of_load hload)).trans (settings_apply fs settings s)

/-- Whatever came before, the settings of an open workspace follow its project file, the command
line, the options of the client and the changes since, as far as their members are recognised. -/
theorem settings_run {fs fs' : Files} {root : String} {rootUri : Option String}
    {project overrides options : List (Value × Value)}
    {before between later : List Message}
    (hbetween : ∀ m ∈ between, ∀ fs overrides, m ≠ .configure fs overrides)
    (hlater : ∀ m ∈ later, m.Live fs.homes) (hroot : Uri.rootPath rootUri = .ok (some root))
    (hne : root ≠ "") (hproject : Settings.ProjectGives fs root project)
    (haccepts : ∀ layer ∈ [project, overrides, options] ++ later.filterMap Message.layer?,
      Settings.Accepts fs.homes layer) :
    Settings.Follows fs.homes root ([project, overrides, options] ++ later.filterMap Message.layer?)
        (run (before ++ .configure fs' (.map overrides) :: between ++
          .openWorkspace fs rootUri (.map options) :: later)).settings ∧
      Settings.Follows fs.homes root
        (([project, overrides, options] ++ later.filterMap Message.layer?).map
          (·.filter Settings.isRecognised))
        (run (before ++ .configure fs' (.map overrides) :: between ++
          .openWorkspace fs rootUri (.map options) :: later)).settings := by
  have hoverrides : (run (before ++ .configure fs' (.map overrides) :: between)).overrides =
      .map overrides := overrides_run hbetween
  rcases Settings.load_follows hne (hproject.readProject hne) (haccepts project (by simp))
    (haccepts overrides (by simp)) (haccepts options (by simp)) with ⟨settings, hload, hfollows⟩
  rw [← hoverrides] at hload
  have hopened := settings_openWorkspace hroot hload
  rw [← hopened] at hfollows
  have hall := follows_foldl_receive hfollows hne hlater fun layer hlayer =>
    haccepts layer (List.mem_append_right _ hlayer)
  have hrun : run (before ++ .configure fs' (.map overrides) :: between ++
      .openWorkspace fs rootUri (.map options) :: later) =
        later.foldl receive ((run (before ++ .configure fs' (.map overrides) :: between)).receive
          (.openWorkspace fs rootUri (.map options))) := by
    rw [run, List.foldl_append, List.foldl_cons]
    rfl
  rw [hrun]
  exact ⟨hall, hall.recognised⟩

end Session

def quietText : List Char :=
  ['v', 'a', 'l', 'i', 'd', 'a', 't', 'e', '=', 'f', 'a', 'l', 's', 'e', '\n']

def quietFiles : Files :=
  .ofTexts [(["w", ".yamlsp.toml"], quietText)]

def quietLayers : List (List (Value × Value)) :=
  [[(.str "validate", .bool false)],
   [(.str "custom_tags", .list [.str "!a", .str "!b"]), (.str "log_level", .str "debug")],
   [(.str "schema", .str "g.json"), (.str "colour", .bool true)],
   [(.str "customTags", .null)],
   [(.str "schema_path", .str "h.json"), (.str "schema", .str "sub/k.json")]]

def quietChanges : List Message :=
  [.changeConfiguration quietFiles (.map [(.str "yaml", .map quietLayers[3])]),
   .openText "u" ⟨some 1, "a: 1"⟩,
   .changeConfiguration quietFiles (.map [(.str "yaml", .map quietLayers[4])])]

def quietHistory : List Message :=
  .configure quietFiles (.map quietLayers[1]) ::
    .openWorkspace quietFiles (some "file:///w") (.map quietLayers[2]) :: quietChanges

namespace Session

theorem settings_run_quietHistory :
    Settings.Follows [] "/w" quietLayers (run quietHistory).settings ∧
      (run quietHistory).settings.schemaPath.plainText = "/w/sub/k.json" := by
  have htext : quietFiles.readText (Settings.projectPath "/w") = .ok quietText :=
    toOption_eq_some.1 (by decide +kernel)
  have hparse : Toml.parse quietText = .ok [(.str "validate", .bool false)] := by rfl
  have hmerged : ∀ layer ∈ quietLayers,
      ((Settings.ofRoot (some "/w")).merged [] (.map layer)).toOption.isSome = true := by
    decide +kernel
  have haccepts : ∀ layer ∈ quietLayers, Settings.Accepts [] layer := by
    intro layer hlayer
    rcases Option.isSome_iff_exists.1 (hmerged layer hlayer) with ⟨s, hs⟩
    exact Settings.accepts_of_merged (toOption_eq_some.1 hs)
  have hlive : ∀ m ∈ quietChanges, m.Live quietFiles.homes := by simp [quietChanges, Message.Live]
  have hroot : Uri.rootPath (some "file:///w") = .ok (some "/w") :=
    toOption_eq_some.1 (by decide +kernel)
  have hlayers : [Settings.projectMembers [(.str "validate", .bool false)], quietLayers[1],
      quietLayers[2]] ++ quietChanges.filterMap Message.layer? = quietLayers := by
    simp [quietLayers, quietChanges, List.filterMap_cons, Message.layer?, Settings.payloadMembers,
      Settings.membersOf, Settings.projectMembers, Value.get?, Value.lookup?, Value.same]
  have hrun := @settings_run quietFiles quietFiles "/w" _ _ quietLayers[1] quietLayers[2] [] []
    quietChanges (by simp) hlive hroot (by decide) (.toml htext hparse) (by rwa [hlayers])
  rw [hlayers] at hrun
  exact ⟨hrun.1, by decide +kernel⟩

end Session
end YamlServer
