import YamlServer.Diagnostic
import YamlServer.Document.Cache
import YamlServer.Document.Description
import YamlServer.Graph.Load
import YamlServer.Settings
import YamlServer.Uri

/-!
# Sessions

The state of a server between messages, and what each message does to it: settings come and change,
texts are opened, changed and closed, and diagnostics are sent for them. A message may fail; what it
did to the state before it failed stays.

* `Session`: the state.
* `Effect`: the outcome of a message, with what was sent and logged on the way.
* `Session.configure`, `Session.openWorkspace`, `Session.changeConfiguration`: settings.
* `Session.openText`, `Session.changeText`, `Session.closeText`: texts.
* `Session.diagnostics`, `Session.resolveNode`: questions.
-/

namespace YamlServer

structure OpenText where
  version : Option Int
  text : String
deriving Repr, DecidableEq

abbrev Validator := Graph → Document → Except GraphFault Graph.Report

/-- The state of a server: the open texts in the order in which they were first opened, the parsed
texts, the settings, those of the command line, the schema graph of the settings, the threshold of
the log, and how documents are checked. -/
structure Session where
  texts : List (String × OpenText)
  cache : Cache
  settings : Settings
  overrides : Value
  graph : Option Graph
  level : Nat
  validator : Validator

namespace Session

/-- A server that has just been started: warnings are logged. -/
def start : Session :=
  ⟨[], .empty, .ofRoot none, .map [], none, 30, Graph.validate⟩

end Session

inductive SessionFault where
  | uri (f : Uri.Fault)
  | settings (f : Settings.Fault)
  | load (f : Graph.LoadFault)
  | read (f : ReadFailure)
  | graph (f : GraphFault)
  | noRange
  | noChange
  | noLine
deriving Repr

structure Publication where
  uri : String
  diagnostics : List Diagnostic
deriving Repr, DecidableEq

/-- What a message leads to: the state after it, what was sent and logged, and its answer. -/
structure Effect (α : Type) where
  session : Session
  sent : List Publication
  logged : List Log.Record
  answer : Except SessionFault α

namespace Effect

def pure {α : Type} (s : Session) (a : α) : Effect α :=
  ⟨s, [], [], .ok a⟩

def fail {α : Type} (s : Session) (f : SessionFault) : Effect α :=
  ⟨s, [], [], .error f⟩

def log (s : Session) (records : List Log.Record) : Effect Unit :=
  ⟨s, [], Log.kept s.level records, .ok ()⟩

/-- One thing after another; the second is left out if the first fails. -/
def bind {α β : Type} (e : Effect α) (f : Session → α → Effect β) : Effect β :=
  match e.answer with
  | .error x => ⟨e.session, e.sent, e.logged, .error x⟩
  | .ok a =>
    let next := f e.session a
    ⟨next.session, e.sent ++ next.sent, e.logged ++ next.logged, next.answer⟩

end Effect

namespace Session

def logger : String := "yamlsp.server"

/-! ## Settings -/

/-- The threshold that a log level sets; a word that is no level changes nothing. There is none if
the level cannot be written as a word. -/
def levelAfter? (level : Nat) (raw : Value) : Option Nat :=
  if !raw.isTrue then some level
  else if raw.isWritable then some ((Log.levelOf? (Text.latinUpper raw.plainText)).getD level)
  else none

/-- Whether a schema that cannot be loaded is only told of: files that are missing, cannot be
decoded or have malformed content of some kinds, and defects of the graph. Any other fault makes the
message fail. -/
def isTolerated : Graph.LoadFault → Bool
  | .file _ => true
  | .json _ => true
  | .yaml (.scalar .malformed) => true
  | .yaml .impossibleDate => true
  | .yaml (.halt .longNumeral) => true
  | .yaml (.halt (.codePoint n)) => n < 2147483648
  | .yaml _ => false
  | .notMap _ => true
  | .graph f => f.message?.isSome
  | .childNotText => false

def loadSchema (fs : Files) (s : Session) : Effect Unit :=
  if s.settings.schemaPath.isTrue then
    let path := s.settings.schemaPath.plainText
    match Graph.load fs path with
    | .ok (g, records) => Effect.log { s with graph := some g } records
    | .error f =>
      if isTolerated f then
        Effect.log s [⟨.warning, logger, "_apply_settings: cannot load schema " ++ path⟩]
      else Effect.fail s (.load f)
  else Effect.pure s ()

/-- Install settings. The schema graph stays if its path does; otherwise it is loaded anew. A log
level that cannot be written makes the message fail before the graph is looked at. -/
def apply (fs : Files) (settings : Settings) (s : Session) : Effect Unit :=
  let keeps := Value.same settings.schemaPath s.settings.schemaPath && s.graph.isSome
  match levelAfter? s.level settings.logLevel with
  | none => Effect.fail { s with settings } (.settings .longNumeral)
  | some level =>
    let s := { s with settings, level }
    if keeps then Effect.pure s () else loadSchema fs { s with graph := none }

def reload (fs : Files) (root : Option String) (options : Value) (s : Session) : Effect Unit :=
  let (records, settings) := Settings.load fs root options s.overrides
  (Effect.log s records).bind fun s _ =>
    match settings with
    | .error f => Effect.fail s (.settings f)
    | .ok settings => s.apply fs settings

def configure (fs : Files) (overrides : Value) (s : Session) : Effect Unit :=
  reload fs none .null { s with overrides }

def openWorkspace (fs : Files) (rootUri : Option String) (options : Value) (s : Session) :
    Effect Unit :=
  match Uri.rootPath rootUri with
  | .error f => Effect.fail s (.uri f)
  | .ok root => s.reload fs root options

/-! ## Diagnostics -/

/-- The parsed form of an open text. With a schema, blank text stands for an empty map. -/
def parsed (uri : String) (s : Session) : Effect (Option DocumentSet) :=
  match s.texts.lookup uri with
  | none => Effect.pure s none
  | some t =>
    let request : CacheRequest :=
      ⟨uri, t.version, t.text, s.settings.customTags, s.graph.isSome⟩
    match s.cache.get request with
    | (.ok documents, cache) => Effect.pure { s with cache } (some documents)
    | (.error f, cache) => Effect.fail { s with cache } (.read f)

/-- What a schema has to say about documents, in turn. A defect of the graph is logged, and the
document passed over. -/
def schemaDiagnostics (uri : String) (g : Graph) (b : Text.Lines) :
    List Document → Session → Effect (List Diagnostic)
  | [], s => Effect.pure s []
  | d :: rest, s =>
    match s.validator g d with
    | .error f =>
      if f.message?.isSome then
        (Effect.log s [⟨.error, logger,
          "_compute_diagnostics: schema graph defect while validating " ++ uri⟩]).bind
          fun s _ => schemaDiagnostics uri g b rest s
      else Effect.fail s (.graph f)
    | .ok report =>
      match report.findings.mapM (SchemaFinding.diagnostic? b) with
      | none => Effect.fail s .noRange
      | some found =>
        (schemaDiagnostics uri g b rest s).bind fun s more => Effect.pure s (found ++ more)

/-- The diagnostics of an open text: what parsing found, then what the schema says. -/
def diagnostics (uri : String) (s : Session) : Effect (List Diagnostic) :=
  (s.parsed uri).bind fun s documents =>
    match documents with
    | none => Effect.pure s []
    | some set =>
      match s.graph with
      | none => Effect.pure s set.diagnostics
      | some g =>
        if s.settings.validate then
          (schemaDiagnostics uri g (Text.Lines.ofText set.source) set.documents s).bind
            fun s more => Effect.pure s (set.diagnostics ++ more)
        else Effect.pure s set.diagnostics

def publish (uri : String) (s : Session) : Effect Unit :=
  (s.diagnostics uri).bind fun s found => ⟨s, [⟨uri, found⟩], [], .ok ()⟩

/-- Send the diagnostics of several texts. A text for which this fails is told of. -/
def republish : List String → Session → Effect Unit
  | [], s => Effect.pure s ()
  | uri :: rest, s =>
    let e := s.publish uri
    let settled : Effect Unit := match e.answer with
      | .ok _ => e
      | .error _ =>
        let record : Log.Record :=
          ⟨.warning, logger, "_revalidate_open_documents: failed for " ++ uri⟩
        ⟨e.session, e.sent, e.logged ++ Log.kept e.session.level [record], .ok ()⟩
    settled.bind fun s _ => republish rest s

/-- The client changes its configuration; all open texts are checked again. -/
def changeConfiguration (fs : Files) (payload : Value) (s : Session) : Effect Unit :=
  match s.settings.configured? fs.homes payload with
  | .error f => Effect.fail s (.settings f)
  | .ok settings =>
    (s.apply fs (settings.getD s.settings)).bind fun s _ => s.republish (s.texts.map (·.1))

/-! ## Texts -/

/-- Set an open text; one that is open already keeps its place. -/
def putText (uri : String) (t : OpenText) : List (String × OpenText) → List (String × OpenText)
  | [] => [(uri, t)]
  | (u, old) :: rest => if u == uri then (u, t) :: rest else (u, old) :: putText uri t rest

def openText (uri : String) (t : OpenText) (s : Session) : Effect Unit :=
  publish uri { s with texts := putText uri t s.texts }

/-- A text is changed as a whole, possibly several times, of which the last one counts. -/
def changeText (uri : String) (version : Option Int) (texts : List String) (s : Session) :
    Effect Unit :=
  match texts.getLast? with
  | none => Effect.fail s .noChange
  | some text => s.openText uri ⟨version, text⟩

def closeText (uri : String) (s : Session) : Effect Unit :=
  ⟨{ s with texts := s.texts.filter fun t => t.1 != uri, cache := s.cache.forget uri },
   [⟨uri, []⟩], [], .ok ()⟩

def resolveNode (uri : String) (line column : Int) (s : Session) : Effect (Option CursorInfo) :=
  (s.parsed uri).bind fun s documents =>
    match documents with
    | none => Effect.pure s none
    | some set =>
      match set.describeAt line column with
      | some info => Effect.pure s (some info)
      | none => Effect.fail s .noLine

end Session
end YamlServer
