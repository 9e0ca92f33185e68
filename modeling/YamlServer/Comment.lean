import YamlServer.Text.Blank
import YamlServer.Yaml.Node

/-!
# Comments

Comments are found in the text itself: a `#` at the start of a line or after a blank, outside the
tokens whose own text may hold one. Each line has at most one, which runs to the end of the line.
Every comment then goes to one host: the document, or a node of it.

* `Comment.scan`: the comments of a text in order.
* `Comment.distribute`: the comments of each document.
* `Comment.hostOf`: the host of a comment. A comment in front of the root leads the document. One
  that follows content goes to the node that ends last before it on its line; one that stands alone
  goes to the next node. What finds no node trails the document.
-/

namespace YamlServer

/-- `text` is what follows the `#`, without blanks at the end; `inline` says that content precedes
it on its line. -/
structure Comment where
  offset : Nat
  line : Nat
  text : String
  inline : Bool
deriving Repr, DecidableEq, Inhabited

namespace Comment

open Yaml

/-! ## Finding comments -/

/-- The spans of the tokens whose text may hold a `#`, in order. -/
def textSpans (tokens : List Token) : List (Nat × Nat) :=
  let spans := tokens.filterMap fun t =>
    if t.kind.isText && t.start.index < t.stop.index then some (t.start.index, t.stop.index)
    else none
  spans.mergeSort fun a b => a.1 < b.1 || (a.1 == b.1 && a.2 ≤ b.2)

/-- Whether the last span that starts at or before an offset holds it. -/
def covered (spans : List (Nat × Nat)) (offset : Nat) : Bool :=
  match (spans.filter fun s => s.1 ≤ offset).getLast? with
  | some s => offset < s.2
  | none => false

def opensAfter : Option Char → Bool
  | none => true
  | some c => c == '\n' || c == ' ' || c == '\t'

/-- The comments from an offset on. `before` is the character in front, `content` says whether the
line has content already, `taken` whether it has its comment. -/
def scanFrom (spans : List (Nat × Nat)) (offset line : Nat) (before : Option Char)
    (content taken : Bool) : List Char → List Comment
  | [] => []
  | c :: rest =>
    if c == '\n' then scanFrom spans (offset + 1) (line + 1) (some c) false false rest
    else if c == '#' && !taken && opensAfter before && !covered spans offset then
      ⟨offset, line, String.ofList (Text.trimEnd (rest.takeWhile (· != '\n'))), content⟩ ::
        scanFrom spans (offset + 1) line (some c) true true rest
    else scanFrom spans (offset + 1) line (some c) (content || !Text.isBlank c) taken rest

def scan (cs : List Char) (tokens : List Token) : List Comment :=
  scanFrom (textSpans tokens) 0 0 none false false cs

/-! ## Hosts -/

/-- What a comment belongs to: the document, before its root or after its content, or a node, in
front of it or on its line. -/
inductive Host where
  | leading
  | trailing
  | before (id : Nat)
  | inline (id : Nat)
deriving Repr, DecidableEq

def following? (nodes : List Node) (offset : Nat) : Option Node :=
  nodes.find? fun n => n.span.start.index > offset

/-- Whether a node ends on a comment's line, before it, and no earlier than `least`. -/
def endsBefore (c : Comment) (least : Nat) (n : Node) : Bool :=
  n.span.stop.line == c.line && least ≤ n.span.stop.index && n.span.stop.index ≤ c.offset

/-- The node that ends last before a comment on its line, the last one listed if several do. -/
def inlineHostFrom (c : Comment) (best : Option Node) : List Node → Option Node
  | [] => best
  | n :: rest =>
    let least := match best with
      | some b => b.span.stop.index
      | none => 0
    inlineHostFrom c (if endsBefore c least n then some n else best) rest

def inlineHost? (nodes : List Node) (c : Comment) : Option Node :=
  inlineHostFrom c none nodes

def hostOf (root : Option Node) (c : Comment) : Host :=
  match root with
  | none => .leading
  | some r =>
    if c.offset < r.span.start.index then .leading
    else if c.inline then
      match inlineHost? r.walk c with
      | some n => .inline n.id
      | none => .trailing
    else
      match following? r.walk c.offset with
      | some n => .before n.id
      | none => .trailing

/-! ## Documents -/

/-- Split the comments over documents that end at the given offsets: each document takes those
before its end, the last one all that remain. -/
def distribute : List Nat → List Comment → List (List Comment)
  | [], _ => []
  | [_], comments => [comments]
  | stop :: rest, comments =>
    let mine := comments.filter fun c => c.offset < stop
    mine :: distribute rest (comments.drop mine.length)

end Comment

structure Attached where
  comments : List (Comment.Host × Comment)
deriving Repr, DecidableEq, Inhabited

namespace Attached

def ofComments (root : Option Yaml.Node) (comments : List Comment) : Attached :=
  ⟨comments.map fun c => (Comment.hostOf root c, c)⟩

def joinLines : List String → Option String
  | [] => none
  | s :: rest => some (rest.foldl (fun acc t => acc ++ "\n" ++ t) s)

/-- The comments of a host as one text, a line for each; none if it has no comment. -/
def text? (a : Attached) (h : Comment.Host) : Option String :=
  joinLines ((a.comments.filter fun c => c.1 == h).map fun c => c.2.text)

end Attached
end YamlServer
