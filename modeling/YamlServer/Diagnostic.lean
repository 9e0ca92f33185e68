import YamlServer.Graph.Match
import YamlServer.Text.Lines

/-!
# Diagnostics

Findings as an editor shows them: a range of lines and columns, a message, a severity, a code and a
source.

* `Document.diagnostics`: the faults and undeclared tags of a document.
* `SchemaFinding.diagnostic`: a finding of a schema graph. Its range is that of the node; the
  counted line stands in for a node without a place.
-/

namespace YamlServer

open Text

structure Position where
  line : Int
  character : Nat
deriving Repr, DecidableEq

structure Range where
  start : Position
  stop : Position
deriving Repr, DecidableEq

/-- Where a diagnostic comes from, which decides its code. -/
inductive Origin where
  | parser
  | schema (warning : SchemaWarning)
deriving Repr, DecidableEq

def Origin.source : Origin → String
  | .parser => "yamlsp"
  | .schema _ => "yamlsp-schema"

structure Diagnostic where
  range : Range
  message : String
  severity : Severity
  origin : Origin
deriving Repr, DecidableEq

namespace Range

def positionAt (b : Lines) (offset : Int) : Position :=
  let (line, column) := b.position offset
  ⟨Int.ofNat line, column⟩

/-- From an offset to another one that is not before it, or to the end of the first line. -/
def ofOffsets (b : Lines) (start stop : Int) (toLineEnd : Bool) : Range :=
  let first := positionAt b start
  if toLineEnd then ⟨first, ⟨first.line, (b.content first.line).length⟩⟩
  else ⟨first, positionAt b (max start stop)⟩

def ofLines (b : Lines) (first last : Int) : Range :=
  ⟨⟨first, 0⟩, ⟨last, (b.content last).length⟩⟩

/-- The range of a place that may be unknown, given the line counted for it. A place that has a
start must have an end. -/
def ofPlace? (b : Lines) (start stop : Option Int) (first last : Int) : Option Range :=
  match start, stop with
  | some s, some e => some (ofOffsets b s e false)
  | some _, none => none
  | none, _ => some (ofLines b first last)

end Range

def Finding.diagnostic (b : Lines) (f : Finding) : Diagnostic :=
  ⟨Range.ofOffsets b (Int.ofNat f.start) (Int.ofNat f.stop) f.toLineEnd, f.message, f.severity,
   .parser⟩

def SchemaFinding.range? (b : Lines) (f : SchemaFinding) : Option Range :=
  Range.ofPlace? b (f.start.map Int.ofNat) (f.stop.map Int.ofNat) (Int.ofNat f.line)
    (Int.ofNat f.line)

def SchemaFinding.diagnostic? (b : Lines) (f : SchemaFinding) : Option Diagnostic :=
  (f.range? b).map fun range => ⟨range, f.message, .warning, .schema f.warning⟩

namespace Document

def diagnostics (b : Lines) (d : Document) : List Diagnostic :=
  (d.errors ++ d.warnings).map (Finding.diagnostic b)

end Document

def DocumentSet.diagnostics (s : DocumentSet) : List Diagnostic :=
  let b := Lines.ofText s.source
  s.documents.flatMap (Document.diagnostics b)

end YamlServer
