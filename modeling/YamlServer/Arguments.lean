import YamlServer.Number.Numeral
import YamlServer.Path
import YamlServer.Text.Case

/-!
# Command line

The options of the program. A long option may be shortened as long as it stays clear which one is
meant, and may have its value after an equals sign. Options are recognised before any of them takes
effect, so that an unclear one is refused first.

* `Arguments.parse`: the options of a command line, or why the program stops.
* `Arguments.overrides`: the settings that were chosen, as a layer.
* `UsageFault.message`: the wording of a refusal.
-/

namespace YamlServer

inductive CliOption where
  | help
  | version
  | stdio
  | tcp
  | schema
  | customTag
  | noValidate
  | logLevel
deriving Repr, DecidableEq

namespace CliOption

def spellings : List (String × CliOption) :=
  [("-h", .help), ("--help", .help), ("--version", .version), ("--stdio", .stdio), ("--tcp", .tcp),
   ("--schema", .schema), ("--custom-tag", .customTag), ("--no-validate", .noValidate),
   ("--log-level", .logLevel)]

def takesValue : CliOption → Bool
  | .tcp | .schema | .customTag | .logLevel => true
  | _ => false

def title (o : CliOption) : String :=
  Value.joined "/" ((spellings.filter fun s => s.2 == o).map (·.1))

end CliOption

inductive UsageFault where
  | ambiguous (word : String) (candidates : List String)
  | expectedValue (o : CliOption)
  | ignoredValue (o : CliOption) (value : String)
  | notAllowedWith (o other : CliOption)
  | invalidInt (o : CliOption) (value : String)
  | invalidChoice (o : CliOption) (value : String)
  | unrecognized (words : List String)
deriving Repr, DecidableEq

def logLevels : List String :=
  ["debug", "info", "warning", "error", "critical"]

namespace UsageFault

def about (o : CliOption) (complaint : String) : String :=
  "argument " ++ o.title ++ ": " ++ complaint

def message : UsageFault → String
  | .ambiguous word candidates =>
    "ambiguous option: " ++ word ++ " could match " ++ Value.joined ", " candidates
  | .expectedValue o => about o "expected one argument"
  | .ignoredValue o value => about o ("ignored explicit argument " ++ Text.quoted value)
  | .notAllowedWith o other => about o ("not allowed with argument " ++ other.title)
  | .invalidInt o value => about o ("invalid int value: " ++ Text.quoted value)
  | .invalidChoice o value =>
    about o ("invalid choice: " ++ Text.quoted value ++ " (choose from " ++
      Value.joined ", " (logLevels.map Text.quoted) ++ ")")
  | .unrecognized words => "unrecognized arguments: " ++ Value.joined " " words

end UsageFault

/-- How the program stops before it starts: it shows its help or its version, or refuses. -/
inductive CliStop where
  | help
  | version
  | refused (f : UsageFault)
deriving Repr, DecidableEq

structure Arguments where
  stdio : Bool
  tcp : Option Int
  schema : Option String
  customTags : List String
  validate : Bool
  logLevel : Option String
deriving Repr, DecidableEq

namespace Arguments

def none : Arguments :=
  ⟨false, .none, .none, [], true, .none⟩

/-! ## Recognising options -/

/-- The value in the same word as its option: after an equals sign, or right after a letter. -/
structure Attached where
  byEquals : Bool
  value : String
deriving Repr, DecidableEq

/-- What a word of the command line is: plain text, the mark after which all is plain text, an
option, or something that looks like one. -/
inductive Kind where
  | plain
  | mark
  | option (o : CliOption) (attached : Option Attached)
  | unknown
deriving Repr, DecidableEq

/-- A negative number, which is no option. -/
def isNegativeNumber (cs : List Char) : Bool :=
  let isDigit (c : Char) : Bool := (Text.decimalDigit? c).isSome
  match if cs.getLast? == some '\n' then cs.dropLast else cs with
  | '-' :: rest =>
    let whole := rest.takeWhile isDigit
    match rest.dropWhile isDigit with
    | [] => !whole.isEmpty
    | '.' :: fraction => !fraction.isEmpty && fraction.all isDigit
    | _ => false
  | _ => false

def splitEquals (word : String) : String × Option Attached :=
  let cs := word.toList
  let head := cs.takeWhile (· != '=')
  match cs.dropWhile (· != '=') with
  | [] => (word, .none)
  | _ :: value => (String.ofList head, some ⟨true, String.ofList value⟩)

def kindOfOther (word : String) : Kind :=
  if isNegativeNumber word.toList || word.toList.contains ' ' then .plain else .unknown

/-- What a word is. A long option may be cut short. -/
def kindOf (word : String) : Except UsageFault Kind :=
  match word.toList with
  | '-' :: second :: rest =>
    let (head, attached) := splitEquals word
    match CliOption.spellings.lookup word, CliOption.spellings.lookup head with
    | some o, _ => .ok (.option o .none)
    | .none, some o => .ok (.option o attached)
    | .none, .none =>
      if second == '-' then
        match CliOption.spellings.filter fun s => head.toList.isPrefixOf s.1.toList with
        | [] => .ok (kindOfOther word)
        | [(_, o)] => .ok (.option o attached)
        | many => .error (.ambiguous word (many.map (·.1)))
      else
        match CliOption.spellings.lookup (String.ofList ['-', second]) with
        | some o => .ok (.option o (some ⟨false, String.ofList rest⟩))
        | .none => .ok (kindOfOther word)
  | _ => .ok .plain

def kinds : List String → Except UsageFault (List (String × Kind))
  | [] => .ok []
  | word :: rest =>
    if word == "--" then .ok ((word, .mark) :: rest.map fun w => (w, .plain))
    else do
      let kind ← kindOf word
      let more ← kinds rest
      return (word, kind) :: more

/-! ## Options taking effect -/

/-- The options so far, those of the transport that were given, and the words that mean nothing. -/
structure Reading where
  arguments : Arguments
  transports : List CliOption
  extras : List String
deriving Repr

def exclude (o other : CliOption) (r : Reading) : Except CliStop Unit :=
  if r.transports.contains other then .error (.refused (.notAllowedWith o other)) else .ok ()

def takeFlag (o : CliOption) (r : Reading) : Except CliStop Reading :=
  match o with
  | .help => .error .help
  | .version => .error .version
  | .stdio => do
    exclude .stdio .tcp r
    return { r with
      arguments := { r.arguments with stdio := true }, transports := .stdio :: r.transports }
  | .noValidate => .ok { r with arguments := { r.arguments with validate := false } }
  | _ => .ok r

def takeValue (o : CliOption) (value : String) (r : Reading) : Except CliStop Reading :=
  let a := r.arguments
  match o with
  | .tcp =>
    match Numeral.int? 10 value.toList with
    | .none => .error (.refused (.invalidInt o value))
    | some port => do
      exclude .tcp .stdio r
      return { r with
        arguments := { a with tcp := some port }, transports := .tcp :: r.transports }
  | .schema => .ok { r with arguments := { a with schema := some value } }
  | .customTag => .ok { r with arguments := { a with customTags := a.customTags ++ [value] } }
  | .logLevel =>
    let level := Text.lower value
    if logLevels.contains level then
      .ok { r with arguments := { a with logLevel := some level } }
    else .error (.refused (.invalidChoice o level))
  | _ => .ok r

/-- What a value does that stands in one word with an option that has none. Letters right after a
one-letter option are further such options. -/
def attachedToFlag (o : CliOption) : List Char → Bool → Except CliStop Unit
  | cs, true => .error (.refused (.ignoredValue o (String.ofList cs)))
  | [], false => .ok ()
  | '-' :: rest, false => .error (.refused (.ignoredValue o (String.ofList ('-' :: rest))))
  | c :: rest, false =>
    if (CliOption.spellings.lookup (String.ofList ['-', c])).isSome then
      match rest with
      | '=' :: value => .error (.refused (.ignoredValue o (String.ofList value)))
      | _ => attachedToFlag o rest false
    else .ok ()

/-- An option takes effect unless its value is the next word. -/
def takeOption (o : CliOption) (attached : Option Attached) (r : Reading) :
    Except CliStop Reading :=
  match attached with
  | some a =>
    if o.takesValue then takeValue o a.value r
    else do
      attachedToFlag o a.value.toList a.byEquals
      takeFlag o r
  | .none => if o.takesValue then .ok r else takeFlag o r

def awaits (o : CliOption) (attached : Option Attached) : Option CliOption :=
  if o.takesValue && attached.isNone then some o else .none

/-- The words take effect in turn; `waiting` is the option whose value comes next. -/
def take : Option CliOption → List (String × Kind) → Reading → Except CliStop Reading
  | some o, (value, .plain) :: rest, r => do
    let r ← takeValue o value r
    take .none rest r
  | some o, _, _ => .error (.refused (.expectedValue o))
  | .none, [], r => .ok r
  | .none, (_, .option o attached) :: rest, r => do
    let r ← takeOption o attached r
    take (awaits o attached) rest r
  | .none, (word, _) :: rest, r => take .none rest { r with extras := r.extras ++ [word] }

/-- The options of a command line. Words that mean nothing are refused in the end. -/
def parse (words : List String) : Except CliStop Arguments :=
  match kinds words with
  | .error f => .error (.refused f)
  | .ok ks => do
    let r ← take .none ks ⟨Arguments.none, [], []⟩
    if r.extras.isEmpty then return r.arguments
    else .error (.refused (.unrecognized r.extras))

/-- How a server is reached: over its standard streams, or on a port of a host. -/
inductive Transport where
  | io
  | tcp (host : String) (port : Int)
deriving Repr, DecidableEq

/-- The transport that was chosen; a port is one of this machine. -/
def transport (a : Arguments) : Transport :=
  match a.tcp with
  | some port => .tcp "127.0.0.1" port
  | .none => .io

/-! ## Settings -/

/-- The settings that were chosen, as a layer. The schema is made an absolute path. -/
def overrides (working : Path) (homes : List (String × String)) (a : Arguments) :
    Except Path.HomeFault Value := do
  let schema ← match a.schema with
    | .none => pure []
    | some s => do
      let p ← (Path.parse s).expandHome homes
      pure [(Value.str "schema", Value.str (Path.absolute working p).text)]
  let tags := if a.customTags.isEmpty then []
    else [(Value.str "customTags", Value.list (a.customTags.map Value.str))]
  let validate := if a.validate then [] else [(Value.str "validate", Value.bool false)]
  let level := match a.logLevel with
    | .none => []
    | some l => [(Value.str "logLevel", Value.str l)]
  return .map (schema ++ tags ++ validate ++ level)

end Arguments

def versionLine : String := "yamlsp 0.1.0"

def UsageFault.report (f : UsageFault) : String :=
  "yamlsp: error: " ++ f.message

def usage : String :=
  "usage: yamlsp [-h] [--version] [--stdio | --tcp PORT] [--schema PATH]\n" ++
  "              [--custom-tag TAG] [--no-validate] [--log-level LEVEL]\n"

def helpText : String :=
  usage ++
  "\nYAML language server with schema-graph validation.\n" ++
  "\noptions:\n" ++
  "  -h, --help         show this help message and exit\n" ++
  "  --version          show program's version number and exit\n" ++
  "\ntransport:\n" ++
  "  --stdio            serve over stdin/stdout (the default)\n" ++
  "  --tcp PORT         serve on 127.0.0.1:PORT instead of stdio\n" ++
  "\nsettings:\n" ++
  "  --schema PATH      schema graph file (.json or .yaml)\n" ++
  "  --custom-tag TAG   accept a custom tag, e.g. '!Ref' or '!Seq sequence';\n" ++
  "                     repeatable\n" ++
  "  --no-validate      only report syntax errors\n" ++
  "  --log-level LEVEL  one of debug, info, warning, error, critical (default:\n" ++
  "                     warning)\n"

end YamlServer
