import YamlServer.Files
import YamlServer.Graph.Basic
import YamlServer.Log
import YamlServer.Toml.Reader

/-!
# Settings

What a user can choose: declared tags, a schema file, whether documents are checked against it, and
how much is logged. Settings come in layers, each overriding the ones before: defaults, the project
file of the workspace, the command line, the options of the client, and later changes by the client.

* `Settings.merge?`: settings with the members of a map applied.
* `Settings.load`: the settings of a session, from all layers.
* `Settings.configured?`: the settings after a change by the client.
-/

namespace YamlServer

/-- The settings. The schema and the log level are kept as they were given when they mean
nothing. -/
structure Settings where
  customTags : List String
  schemaPath : Value
  validate : Bool
  logLevel : Value
  workspaceRoot : Option String
deriving Repr

namespace Settings

/-- Why a layer cannot be applied: it has no members, its tags are no collection, a path starts at
the home of nobody, a project file is not UTF-8, and an integer is too long to be read or
written. -/
inductive Fault where
  | noMembers
  | noItems
  | home (f : Path.HomeFault)
  | encoding (f : Utf8.Fault)
  | longNumeral
deriving Repr, DecidableEq

def ofRoot (root : Option String) : Settings :=
  ⟨[], .null, true, .null, root⟩

/-- The same choices, wherever the workspace is. -/
def same (a b : Settings) : Bool :=
  a.customTags == b.customTags && Value.same a.schemaPath b.schemaPath &&
    a.validate == b.validate && Value.same a.logLevel b.logLevel

/-! ## Layers -/

inductive Choice where
  | customTags
  | schemaPath
  | validate
  | logLevel
deriving Repr, DecidableEq

/-- The names of the choices, in both spellings. -/
def names : List (String × Choice) :=
  [("customTags", .customTags), ("custom_tags", .customTags), ("schema", .schemaPath),
   ("schema_path", .schemaPath), ("validate", .validate), ("logLevel", .logLevel),
   ("log_level", .logLevel)]

def choice? (key : Value) : Option Choice :=
  match key with
  | .str s => names.lookup s
  | _ => none

/-- A path in the settings: seen from the workspace, a home directory filled in. -/
def resolvePath (homes : List (String × String)) (root : Option String) (s : String) :
    Except Path.HomeFault String := do
  let p ← (Path.parse s).expandHome homes
  match root with
  | none | some "" => return p.text
  | some r => return ((Path.parse r).join p).text

/-- The tags that a value lists; nothing counts as an empty list. -/
def tagsOf (v : Value) : Except Fault (List String) :=
  if v.isTrue then
    match Graph.items? v with
    | some items =>
      if items.all Value.isWritable then .ok (items.map Value.plainText) else .error .longNumeral
    | none => .error .noItems
  else .ok []

/-- Make one choice. Paths are seen from the workspace of `base`. -/
def choose (homes : List (String × String)) (base : Settings) (c : Choice) (v : Value)
    (s : Settings) : Except Fault Settings :=
  match c with
  | .customTags => do
    let tags ← tagsOf v
    return { s with customTags := tags }
  | .validate => .ok { s with validate := v.isTrue }
  | .logLevel => .ok { s with logLevel := v }
  | .schemaPath =>
    if !v.isTrue then .ok { s with schemaPath := v }
    else if !v.isWritable then .error .longNumeral
    else
      match resolvePath homes base.workspaceRoot v.plainText with
      | .ok path => .ok { s with schemaPath := .str path }
      | .error f => .error (.home f)

/-- Make the choices of members in turn, the last one winning. Other members do not count. -/
def chooseAll (homes : List (String × String)) (base : Settings) :
    List (Value × Value) → Settings → Except Fault Settings
  | [], s => .ok s
  | (key, v) :: rest, s =>
    match choice? key with
    | none => chooseAll homes base rest s
    | some c => do
      let s ← choose homes base c v s
      chooseAll homes base rest s

/-- The settings with a layer applied; none if the layer is empty or nothing at all. -/
def merge? (homes : List (String × String)) (s : Settings) (layer : Value) :
    Except Fault (Option Settings) :=
  if layer.isTrue then
    match layer with
    | .map members => (chooseAll homes s members s).map some
    | _ => .error .noMembers
  else .ok none

def merged (homes : List (String × String)) (s : Settings) (layer : Value) :
    Except Fault Settings :=
  (s.merge? homes layer).map (·.getD s)

/-! ## The project file -/

def projectFileName : String := ".yamlsp.toml"

/-- The layer in the entries of a project file: its section `yaml` or, without one, all of it. -/
def projectSection (entries : Toml.Entries) : Value :=
  match (Value.get? entries "yaml").getD (.map entries) with
  | .map members => .map members
  | _ => .map []

def unreadable (p : Path) : Log.Record :=
  ⟨.warning, "yamlsp.config", "read_project_config: cannot read " ++ p.text⟩

/-- The layer of the project file of a workspace, and what is logged. It is empty if there is no
file, or one that cannot be opened or is no TOML. -/
def readProject (fs : Files) (root : Option String) : List Log.Record × Except Fault Value :=
  match root with
  | none | some "" => ([], .ok (.map []))
  | some r =>
    let p := (Path.parse r).join ⟨0, [projectFileName]⟩
    if fs.exists? p then
      match fs.readText p with
      | .error (.file _) => ([unreadable p], .ok (.map []))
      | .error (.encoding f) => ([], .error (.encoding f))
      | .ok cs =>
        match Toml.parse cs with
        | .error .malformed => ([unreadable p], .ok (.map []))
        | .error .longNumeral => ([], .error .longNumeral)
        | .ok entries => ([], .ok (projectSection entries))
    else ([], .ok (.map []))

/-! ## Sessions -/

/-- The options of a client as a layer: a map counts, anything else is as good as nothing. -/
def optionsLayer (options : Value) : Value :=
  match options with
  | .map members => .map members
  | _ => .map []

/-- The options of a client whose members have no order: those that count, in the order of
`names`. -/
def unorderedLayer (options : Value) : Value :=
  match options with
  | .map members =>
    .map (names.filterMap fun (name, _) =>
      (Value.get? members name).map fun v => (.str name, v))
  | _ => .map []

/-- The settings of a session in a workspace: its project file, then the command line, then the
options of the client; and what is logged. -/
def load (fs : Files) (root : Option String) (options overrides : Value) :
    List Log.Record × Except Fault Settings :=
  let (records, project) := readProject fs root
  (records, do
    let s ← (ofRoot root).merged fs.homes (← project)
    let s ← s.merged fs.homes overrides
    s.merged fs.homes (optionsLayer options))

/-- The settings after a change by the client, whose section `yaml` counts; none if nothing
changes. -/
def configured? (homes : List (String × String)) (s : Settings) (payload : Value) :
    Except Fault (Option Settings) :=
  match payload with
  | .map members => s.merge? homes (optionsLayer ((Value.get? members "yaml").getD .null))
  | _ => .ok none

end Settings
end YamlServer
