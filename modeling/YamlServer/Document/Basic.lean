import YamlServer.Text.Case
import YamlServer.Text.Lines
import YamlServer.Tree.OfNode

/-!
# Parsed documents

A text as its documents: the tree of each, its comments, its faults and the tags it uses without
declaring them.

* `DocumentSet.parse`: the documents of a text, under a list of declared tags.
* `Document.errors`, `Document.warnings`: the findings about a document.
* `Document.lineComments`: all its comments.
-/

namespace YamlServer

open Yaml

inductive Severity where
  | error
  | warning
deriving Repr, DecidableEq

def Severity.code : Severity → Nat
  | .error => 1
  | .warning => 2

/-- A finding about a document, over a range of offsets; `toLineEnd` stretches it to the end of the
line it starts on. -/
structure Finding where
  message : String
  severity : Severity
  start : Nat
  stop : Nat
  toLineEnd : Bool
deriving Repr, DecidableEq

/-- Why a text has no documents at all: a forbidden character, an escape or a version without a
value, or a scalar without one under its tag. -/
inductive ReadFailure where
  | halt (h : Halt)
  | scalar (f : Scalar.Fault)
deriving Repr, DecidableEq

/-! ## Declared tags -/

/-- The kinds of nodes for which each tag is declared, tags in the order of their first entry. An
entry is a tag and a kind; without a kind it declares scalars. -/
def tagKinds (entries : List String) : List (String × List String) :=
  entries.foldl (fun acc entry =>
    match Text.words entry with
    | [] => acc
    | tag :: rest =>
      let kind := match rest with
        | kind :: _ => Text.lower kind
        | [] => "scalar"
      if acc.any (·.1 == tag) then
        acc.map fun (t, kinds) =>
          if t == tag && !kinds.contains kind then (t, kinds ++ [kind]) else (t, kinds)
      else acc ++ [(tag, [kind])]) []

/-- Whether a tag is local: it starts with an exclamation mark. -/
def isLocalTag (tag : String) : Bool :=
  tag.toList.head? == some '!'

/-- The nodes with a local tag that is not declared for their kind. -/
def undeclared (kinds : List (String × List String)) (nodes : List Node) : List (Node × String) :=
  nodes.filterMap fun n =>
    match n.tag? with
    | some tag =>
      if isLocalTag tag && !((kinds.lookup tag).getD []).contains n.kindName then some (n, tag)
      else none
    | none => none

/-! ## Documents -/

structure Source where
  composed : Composed
  attached : Attached
deriving Repr

/-- A document: its tree, what it was composed from, and the declared tags. A document that was not
read from a text has no source. -/
structure Document where
  root : Option Tree
  source : Option Source
  customTags : List String
deriving Repr

namespace Document

def ofTree (root : Option Tree) : Document :=
  ⟨root, none, []⟩

def ofComposed (customTags : List String) (c : Composed) (comments : List Comment) :
    Except Scalar.Fault Document := do
  let attached := Attached.ofComments c.root comments
  match c.root with
  | none => return ⟨none, some ⟨c, attached⟩, customTags⟩
  | some n =>
    let root ← Tree.ofNode attached n
    return ⟨some root, some ⟨c, attached⟩, customTags⟩

def start (d : Document) : Nat :=
  (d.source.map (·.composed.start)).getD 0

def stop (d : Document) : Nat :=
  (d.source.map (·.composed.stop)).getD 0

def visits (d : Document) : List Tree.Visit :=
  Tree.visitsOf d.root

def commentBefore (d : Document) : Option String :=
  d.source.bind (·.attached.text? .leading)

def comment (d : Document) : Option String :=
  d.source.bind (·.attached.text? .trailing)

def splitLines : List Char → List (List Char)
  | [] => [[]]
  | c :: rest =>
    match splitLines rest with
    | [] => [[c]]
    | line :: lines => if c == '\n' then [] :: line :: lines else (c :: line) :: lines

def hashLines (block : Option String) : List String :=
  match block with
  | none => []
  | some text => (splitLines text.toList).map fun line => String.ofList ('#' :: line)

def hashEntry (comment : Option String) : List String :=
  match comment with
  | none => []
  | some text => ["#" ++ text]

/-- All comments: the leading block, then for each node its block and its inline comment, then the
trailing comment. -/
def lineComments (d : Document) : List String :=
  match d.source with
  | none => []
  | some _ =>
    hashLines d.commentBefore ++
      (d.visits.flatMap fun v =>
        match v.node.info? with
        | some info => hashLines info.commentBefore ++ hashEntry info.comment
        | none => []) ++
      hashEntry d.comment

def errors (d : Document) : List Finding :=
  match d.source.bind (·.composed.fault) with
  | none => []
  | some f => [⟨f.message, .error, f.offset, f.offset, true⟩]

def warnings (d : Document) : List Finding :=
  match d.source.bind (·.composed.root) with
  | none => []
  | some root =>
    (undeclared (tagKinds d.customTags) root.walk).map fun (n, tag) =>
      ⟨"Unresolved tag: " ++ tag, .warning, n.span.start.index, n.span.stop.index, true⟩

end Document

/-! ## Texts -/

structure DocumentSet where
  documents : List Document
  tokens : List Token
  source : String
deriving Repr

namespace DocumentSet

/-- Give each composed document its comments and make it a document. -/
def convert (customTags : List String) :
    List (Composed × List Comment) → Except Scalar.Fault (List Document)
  | [] => .ok []
  | (c, comments) :: rest => do
    let d ← Document.ofComposed customTags c comments
    let more ← convert customTags rest
    return d :: more

/-- Whether a halt lets no document be read: a forbidden character or a value that does not exist.
Any other fault belongs to a document. -/
def isFatal : Halt → Bool
  | .fault ⟨.character _, _⟩ => true
  | .fault _ => false
  | .codePoint _ => true
  | .longNumeral => true

def parse (source : String) (customTags : List String) : Except ReadFailure DocumentSet :=
  let cs := source.toList
  let stream := TokenStream.ofChars cs
  match stream.halt.filter isFatal with
  | some h => .error (.halt h)
  | none =>
    let composed := Composed.ofEvents cs.length (EventStream.ofTokens stream)
    let shares := Comment.distribute (composed.map (·.stop)) (Comment.scan cs stream.tokens)
    match convert customTags (composed.zip shares) with
    | .error f => .error (.scalar f)
    | .ok documents => .ok ⟨documents, stream.tokens, source⟩

end DocumentSet
end YamlServer
