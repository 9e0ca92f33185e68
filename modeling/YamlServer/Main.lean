import YamlServer.Arguments
import YamlServer.Session

/-!
# The program

The command line: it reads the options, shows the help or the version, refuses what it does not
understand, and sets up a session with the schema that was chosen.
-/

namespace YamlServer

def chosenFiles (overrides : Value) (fs : Files) : IO Files :=
  match overrides with
  | .map members =>
    match Value.get? members "schema" with
    | some (.str path) => do
      try
        let data ← IO.FS.readBinFile path
        return fs.write (Path.parse path) data.toList
      catch _ => return fs
    | _ => return fs
  | _ => return fs

/-- Set up a session; what is logged goes to the standard error stream. -/
def launch (a : Arguments) : IO UInt32 := do
  let working ← IO.currentDir
  let home ← IO.getEnv "HOME"
  let fs : Files := ⟨Path.parse working.toString, home.toList.map fun h => ("", h), []⟩
  match a.overrides fs.working fs.homes with
  | .error _ =>
    IO.eprintln "Could not determine home directory."
    return 1
  | .ok overrides =>
    let fs ← chosenFiles overrides fs
    let e := Session.start.configure fs overrides
    for r in e.logged do
      IO.eprintln (r.level.name ++ " " ++ r.logger ++ ": " ++ r.message)
    match e.answer with
    | .ok _ => return 0
    | .error _ => return 1

def run (words : List String) : IO UInt32 := do
  match Arguments.parse words with
  | .error .help =>
    IO.print helpText
    return 0
  | .error .version =>
    IO.println versionLine
    return 0
  | .error (.refused f) =>
    IO.eprint usage
    IO.eprintln f.report
    return 2
  | .ok a => launch a

end YamlServer

def main (words : List String) : IO UInt32 :=
  YamlServer.run words
