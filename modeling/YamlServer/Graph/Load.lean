import YamlServer.Files
import YamlServer.Graph.Shared
import YamlServer.Json.Reader
import YamlServer.Log

/-!
# Graphs in files

A schema graph from a file: JSON if the name of the file ends so, in any case of letters, and YAML
otherwise. Children without an entry are allowed, but the log tells of them.

* `Graph.ofText`: the graph of a file's text.
* `Graph.load`: the graph of a file, with the records to be logged.
-/

namespace YamlServer
namespace Graph

/-- Why a file has no graph: it cannot be read, it is no JSON or no YAML, its data is no map, the
map is no graph, or a child without an entry cannot be told of because it is no text. -/
inductive LoadFault where
  | file (f : Files.TextFault)
  | json (f : Json.Fault)
  | yaml (f : Yaml.ObjectFailure)
  | notMap (path : String)
  | graph (f : GraphFault)
  | childNotText
deriving Repr

/-- The wording of a defect of the graph itself; the other faults have none. -/
def LoadFault.message? : LoadFault → Option String
  | .notMap path => some (path ++ ": expected a mapping at the top level")
  | .graph f => f.message?
  | _ => none

def isJsonFile (p : Path) : Bool :=
  Text.lower p.suffix == ".json"

def ofText (p : Path) (cs : List Char) : Except LoadFault Graph := do
  let graph? ←
    if isJsonFile p then
      match Json.parse cs with
      | .ok data => .ok (ofData? data)
      | .error f => .error (.json f)
    else
      match Yaml.Objects.ofChars cs with
      | .ok objects => .ok (ofObjects? objects)
      | .error f => .error (.yaml f)
  match graph? with
  | none => .error (.notMap p.text)
  | some (.error f) => .error (.graph f)
  | some (.ok g) => return g

def childTexts? : List Value → Option (List String)
  | [] => some []
  | .str s :: rest => (childTexts? rest).map (s :: ·)
  | _ :: _ => none

def namedChildren : Nat := 5

/-- The record that tells of children without an entry, if there are some. -/
def danglingRecords (p : Path) (dangling : List (Value × Value)) :
    Except LoadFault (List Log.Record) :=
  if dangling.isEmpty then .ok []
  else
    match childTexts? ((dangling.take namedChildren).map (·.2)) with
    | none => .error .childNotText
    | some names =>
      .ok [⟨.warning, "yamlsp.schema", "load_schema_graph: " ++ p.text ++ " has " ++
        toString dangling.length ++ " child key(s) without a definition: " ++
        Value.joined ", " names⟩]

def load (fs : Files) (path : String) : Except LoadFault (Graph × List Log.Record) := do
  let p := Path.parse path
  let cs ← match fs.readText p with
    | .ok cs => .ok cs
    | .error f => .error (.file f)
  let g ← ofText p cs
  let dangling ← match g.dangling with
    | .ok ds => .ok ds
    | .error f => .error (.graph f)
  let records ← danglingRecords p dangling
  return (g, records)

end Graph
end YamlServer
