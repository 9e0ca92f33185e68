import YamlServer.Path
import YamlServer.Text.Utf8

/-!
# Files

The files that the server can see: a table of contents, the working directory, and the home
directories of users. A directory exists when a file lies below it or when it is on the way to the
working directory.

* `Files.read`: the bytes of a file.
* `Files.exists?`: whether there is a file or a directory.
* `Files.readText`: a file as text, its line breaks being line feeds.
* `Files.write`: the files after one has been written.
-/

namespace YamlServer

structure Files where
  working : Path
  homes : List (String × String)
  table : List (List String × List UInt8)
deriving Repr

namespace Files

inductive Fault where
  | notFound
  | isDirectory
  | notDirectory
deriving Repr, DecidableEq

inductive Entry where
  | file (data : List UInt8)
  | directory
deriving Repr, DecidableEq

def entry? (fs : Files) (parts : List String) : Option Entry :=
  match fs.table.lookup parts with
  | some data => some (.file data)
  | none =>
    if parts.isPrefixOf fs.working.parts || fs.table.any fun (p, _) => parts.isPrefixOf p then
      some .directory
    else none

/-- Go from the place `here` along parts, each step of which needs a directory. -/
def walk (fs : Files) (here : List String) : List String → Except Fault Entry
  | [] =>
    match fs.entry? here with
    | some e => .ok e
    | none => .error .notFound
  | part :: rest =>
    match fs.entry? here with
    | none => .error .notFound
    | some (.file _) => .error .notDirectory
    | some .directory =>
      if part == ".." then fs.walk here.dropLast rest else fs.walk (here ++ [part]) rest

def find (fs : Files) (p : Path) : Except Fault Entry :=
  fs.walk [] (fs.working.join p).parts

def exists? (fs : Files) (p : Path) : Bool :=
  match fs.find p with
  | .ok _ => true
  | .error _ => false

def read (fs : Files) (p : Path) : Except Fault (List UInt8) := do
  match ← fs.find p with
  | .file data => return data
  | .directory => .error .isDirectory

def feeds : List Char → List Char
  | '\r' :: '\n' :: rest => '\n' :: feeds rest
  | '\r' :: rest => '\n' :: feeds rest
  | c :: rest => c :: feeds rest
  | [] => []

/-- Why there is no text: there is no file, or its bytes are not UTF-8. -/
inductive TextFault where
  | file (f : Fault)
  | encoding (f : Utf8.Fault)
deriving Repr, DecidableEq

def readText (fs : Files) (p : Path) : Except TextFault (List Char) :=
  match fs.read p with
  | .error f => .error (.file f)
  | .ok data =>
    match Utf8.decode data with
    | .error f => .error (.encoding f)
    | .ok cs => .ok (feeds cs)

def write (fs : Files) (p : Path) (data : List UInt8) : Files :=
  let parts := (Path.absolute fs.working p).parts
  { fs with table := (parts, data) :: fs.table.filter fun (q, _) => q != parts }

end Files
end YamlServer
