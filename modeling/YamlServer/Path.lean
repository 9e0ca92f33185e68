import YamlServer.Text.Blank
import YamlServer.Value

/-!
# Paths

File paths as a root and a list of parts. Empty parts and single dots do not count, double dots are
kept. Two slashes in front are a root of their own; three or more are one.

* `Path.parse`, `Path.text`: from and to text.
* `Path.join`: a path below another one, unless it is absolute.
* `Path.expandHome`: the path with a leading home directory filled in.
* `Path.absolute`: the path without dots, seen from a directory.
-/

namespace YamlServer

/-- A path; `root` counts the slashes that it starts with, none, one or two. -/
structure Path where
  root : Nat
  parts : List String
deriving Repr, DecidableEq, Inhabited

namespace Path

def splitSlashes : List Char → List (List Char)
  | [] => [[]]
  | c :: rest =>
    match splitSlashes rest with
    | [] => [[c]]
    | part :: parts => if c == '/' then [] :: part :: parts else (c :: part) :: parts

def partsOf (cs : List Char) : List String :=
  ((splitSlashes cs).map String.ofList).filter fun part => part != "" && part != "."

def parse (s : String) : Path :=
  let cs := s.toList
  let slashes := (cs.takeWhile (· == '/')).length
  ⟨if slashes == 0 then 0 else if slashes == 2 then 2 else 1, partsOf cs⟩

/-- The text of a path; the empty path is a dot. -/
def text (p : Path) : String :=
  let body := Value.joined "/" p.parts
  if p.root == 0 && p.parts.isEmpty then "."
  else String.ofList (List.replicate p.root '/') ++ body

def isAbsolute (p : Path) : Bool :=
  p.root > 0

def join (base p : Path) : Path :=
  if p.isAbsolute then p else ⟨base.root, base.parts ++ p.parts⟩

def name (p : Path) : String :=
  p.parts.getLast?.getD ""

/-- The ending of a name: from its last point on, unless the name starts or ends there. -/
def suffix (p : Path) : String :=
  let cs := p.name.toList
  let ending := (cs.reverse.takeWhile (· != '.')).reverse
  let stem := cs.length - ending.length - 1
  if ending.length < cs.length && 0 < stem && !ending.isEmpty then
    String.ofList ('.' :: ending)
  else ""

/-- Why a path has no home directory to start from: nobody is called so. -/
inductive HomeFault where
  | unknownUser
deriving Repr, DecidableEq

/-- Fill in the home directory that a path starts with: `~` is that of the nameless entry of
`homes`, `~name` that of `name`. -/
def expandHome (homes : List (String × String)) (p : Path) : Except HomeFault Path :=
  if p.isAbsolute then .ok p
  else
    match p.parts with
    | [] => .ok p
    | first :: rest =>
      match first.toList with
      | '~' :: user =>
        match homes.lookup (String.ofList user) with
        | some home => .ok (join (parse home) ⟨0, rest⟩)
        | none => .error .unknownUser
      | _ => .ok p

def withoutDots (acc : List String) : List String → List String
  | [] => acc.reverse
  | part :: rest =>
    if part == ".." then withoutDots (acc.drop 1) rest else withoutDots (part :: acc) rest

/-- The path from a single root without dots, seen from a directory. -/
def absolute (directory : Path) (p : Path) : Path :=
  ⟨1, withoutDots [] (join directory p).parts⟩

end Path
end YamlServer
