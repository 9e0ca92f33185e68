import YamlServer.Yaml.Token.Stream

/-!
# Events

The grammar of YAML over tokens. A state says what may come next, a stack holds what to do when the
current node is complete, and every step reads some tokens and gives one event: the start or end of
a document or a collection, a scalar, or an alias.

* `Grammar.step`: one event.
* `EventStream.ofTokens`: all events of a token stream, in order, and what stopped them early.
-/

namespace YamlServer
namespace Yaml

/-- What a node is given in front of its content: an anchor and a tag. The tag is complete, its
handle being replaced already. -/
structure Properties where
  anchor : Option String
  tag : Option String
deriving Repr, DecidableEq, Inhabited

inductive EventKind where
  | documentStart
  | documentEnd
  | streamEnd
  | alias (name : String)
  | scalar (properties : Properties) (content : String) (style : Option Style)
  | sequenceStart (properties : Properties)
  | sequenceEnd
  | mappingStart (properties : Properties)
  | mappingEnd
deriving Repr, DecidableEq, Inhabited

structure Event where
  kind : EventKind
  start : Mark
  stop : Mark
deriving Repr, DecidableEq, Inhabited

inductive Expect where
  | firstDocument
  | document
  | documentContent
  | documentEnd
  | blockNode
  | blockSequenceFirst
  | blockSequence
  | indentlessSequence
  | blockMappingFirst
  | blockMappingKey
  | blockMappingValue
  | flowSequenceFirst
  | flowSequence
  | flowPairKey
  | flowPairValue
  | flowPairEnd
  | flowMappingFirst
  | flowMappingKey
  | flowMappingValue
  | flowMappingEmptyValue
deriving Repr, DecidableEq, Inhabited

/-- The state of the grammar: the tokens to come, what is expected, what to expect after the open
nodes, and the tag handles in force. -/
structure Grammar where
  tokens : List Token
  expect : Expect
  pending : List Expect
  handles : List (String × String)
deriving Repr

namespace Grammar

def defaultHandles : List (String × String) :=
  [("!", "!"), ("!!", "tag:yaml.org,2002:")]

/-- One step ends in an event and a new state, runs out of tokens, or meets a problem. -/
inductive Outcome where
  | event (e : Event) (next : Grammar)
  | exhausted
  | fault (f : Fault)
deriving Repr

def complain (p : GrammarProblem) (t : Token) : Outcome :=
  .fault ⟨.grammar p, t.start.index⟩

def resume (g : Grammar) : Grammar :=
  match g.pending with
  | e :: rest => { g with expect := e, pending := rest }
  | [] => g

def thenExpect (e : Expect) (g : Grammar) : Grammar :=
  { g with pending := e :: g.pending }

def emptyScalar (m : Mark) : Event :=
  ⟨.scalar ⟨none, none⟩ "" none, m, m⟩

/-- An empty scalar, after which `e` is expected. -/
def omitted (m : Mark) (e : Expect) (g : Grammar) : Outcome :=
  .event (emptyScalar m) { g with expect := e }

/-! ## Nodes -/

/-- The properties in front of a node, in either order, as tokens give them: where they start and
end, the anchor, and the tag with its place. -/
structure RawProperties where
  start : Option Mark
  stop : Option Mark
  anchor : Option String
  tag : Option (Option String × String × Mark)
deriving Repr

/-- An anchor and a tag in front of a node, and the tokens after them. -/
def splitProperties : List Token → RawProperties × List Token
  | ⟨.anchor a, s, _⟩ :: ⟨.tag h x, s', e'⟩ :: rest =>
    (⟨some s, some e', some a, some (h, x, s')⟩, rest)
  | ⟨.anchor a, s, e⟩ :: rest => (⟨some s, some e, some a, none⟩, rest)
  | ⟨.tag h x, s, _⟩ :: ⟨.anchor a, _, e'⟩ :: rest =>
    (⟨some s, some e', some a, some (h, x, s)⟩, rest)
  | ⟨.tag h x, s, e⟩ :: rest => (⟨some s, some e, none, some (h, x, s)⟩, rest)
  | tokens => (⟨none, none, none, none⟩, tokens)

def completeTag (handles : List (String × String)) :
    Option (Option String × String × Mark) → Except Fault (Option String)
  | none => .ok none
  | some (none, suffix, _) => .ok (some suffix)
  | some (some handle, suffix, mark) =>
    match handles.lookup handle with
    | some replacement => .ok (some (replacement ++ suffix))
    | none => .error ⟨.grammar (.undefinedHandle handle), mark.index⟩

/-- The event of a node whose properties are read. `block` admits block collections, `indentless` a
block sequence that is indented no further than its parent. -/
def nodeContent (block indentless : Bool) (raw : RawProperties) (properties : Properties)
    (g : Grammar) : Outcome :=
  match g.tokens with
  | [] => .exhausted
  | t :: rest =>
    let start := raw.start.getD t.start
    let after := { g with tokens := rest }
    match t.kind with
    | .scalar content style =>
      .event ⟨.scalar properties content style, start, t.stop⟩ after.resume
    | .flowSequenceStart =>
      .event ⟨.sequenceStart properties, start, t.stop⟩ { g with expect := .flowSequenceFirst }
    | .flowMappingStart =>
      .event ⟨.mappingStart properties, start, t.stop⟩ { g with expect := .flowMappingFirst }
    | kind =>
      if indentless && kind == .blockEntry then
        .event ⟨.sequenceStart properties, start, t.stop⟩ { g with expect := .indentlessSequence }
      else if block && kind == .blockSequenceStart then
        .event ⟨.sequenceStart properties, start, t.start⟩ { g with expect := .blockSequenceFirst }
      else if block && kind == .blockMappingStart then
        .event ⟨.mappingStart properties, start, t.start⟩ { g with expect := .blockMappingFirst }
      else if raw.start.isSome then
        .event ⟨.scalar properties "" none, start, raw.stop.getD t.start⟩ g.resume
      else complain (.nodeContent block kind.name) t

/-- A node: an alias, or properties and content. The handle of a tag is looked up once the token
after the properties decides that they are complete; an anchor beside the tag does so too. -/
def node (block indentless : Bool) (g : Grammar) : Outcome :=
  match g.tokens with
  | [] => .exhausted
  | ⟨.alias name, s, e⟩ :: rest => .event ⟨.alias name, s, e⟩ { g with tokens := rest }.resume
  | tokens =>
    let (raw, rest) := splitProperties tokens
    if rest.isEmpty && raw.anchor.isNone then .exhausted
    else
      match completeTag g.handles raw.tag with
      | .error f => .fault f
      | .ok tag => nodeContent block indentless raw ⟨raw.anchor, tag⟩ { g with tokens := rest }

/-- After an indicator that ended at `m`: a node, or an empty scalar if one of `ends` follows. -/
def nodeUnless (ends : TokenKind → Bool) (block indentless : Bool) (m : Mark) (e : Expect)
    (g : Grammar) : Outcome :=
  match g.tokens with
  | [] => .exhausted
  | t :: _ =>
    if ends t.kind then g.omitted m e else (g.thenExpect e).node block indentless

/-! ## Documents -/

/-- The version and tag directives in front of a document: the handles they define, the first
problem, and the tokens after them. -/
def directives (version : Bool) (handles : List (String × String)) :
    List Token → Except Fault (List (String × String)) × List Token
  | ⟨.directive (.version major _), s, _⟩ :: rest =>
    if version then (.error ⟨.grammar .duplicateVersion, s.index⟩, rest)
    else if major != 1 then (.error ⟨.grammar .incompatibleVersion, s.index⟩, rest)
    else directives true handles rest
  | ⟨.directive (.tag handle replacement), s, _⟩ :: rest =>
    if (handles.lookup handle).isSome then
      (.error ⟨.grammar (.duplicateHandle handle), s.index⟩, rest)
    else directives version (handles ++ [(handle, replacement)]) rest
  | ⟨.directive (.other _), _, _⟩ :: rest => directives version handles rest
  | tokens => (.ok handles, tokens)

/-- The default handles that a document's own do not replace, after its own. -/
def withDefaults (handles : List (String × String)) : List (String × String) :=
  handles ++ defaultHandles.filter fun d => (handles.lookup d.1).isNone

/-- The next document, or the end of the stream. Further document ends are passed over. -/
def document (g : Grammar) : Outcome :=
  match g.tokens.dropWhile (·.kind == .documentEnd) with
  | [] => .exhausted
  | first :: rest =>
    if first.kind == .streamEnd then
      .event ⟨.streamEnd, first.start, first.stop⟩ { g with tokens := rest }
    else
      match directives false [] (first :: rest) with
      | (.error f, _) => .fault f
      | (.ok _, []) => .exhausted
      | (.ok handles, t :: after) =>
        if t.kind == .documentStart then
          .event ⟨.documentStart, first.start, t.stop⟩
            { g with tokens := after, expect := .documentContent,
                     pending := .documentEnd :: g.pending, handles := withDefaults handles }
        else complain (.documentStart t.kind.name) t

def firstDocument (g : Grammar) : Outcome :=
  match g.tokens with
  | [] => .exhausted
  | t :: _ =>
    match t.kind with
    | .directive _ | .documentStart | .streamEnd => g.document
    | _ =>
      .event ⟨.documentStart, t.start, t.start⟩
        { g with expect := .blockNode, pending := .documentEnd :: g.pending,
                 handles := defaultHandles }

/-- The content of a document with a start mark, which may be left out. -/
def documentContent (g : Grammar) : Outcome :=
  match g.tokens with
  | [] => .exhausted
  | t :: _ =>
    match t.kind with
    | .directive _ | .documentStart | .documentEnd | .streamEnd =>
      .event (emptyScalar t.start) g.resume
    | _ => g.node true false

def documentEnd (g : Grammar) : Outcome :=
  match g.tokens with
  | [] => .exhausted
  | t :: rest =>
    if t.kind == .documentEnd then
      .event ⟨.documentEnd, t.start, t.stop⟩ { g with tokens := rest, expect := .document }
    else .event ⟨.documentEnd, t.start, t.start⟩ { g with expect := .document }

/-! ## Block collections -/

def endsBlockEntry (k : TokenKind) : Bool :=
  k == .blockEntry || k == .blockEnd

def endsBlockPart (k : TokenKind) : Bool :=
  k == .key || k == .value || k == .blockEnd

def endsIndentlessEntry (k : TokenKind) : Bool :=
  k == .blockEntry || endsBlockPart k

def blockSequence (g : Grammar) : Outcome :=
  match g.tokens with
  | [] => .exhausted
  | t :: rest =>
    let after := { g with tokens := rest }
    if t.kind == .blockEntry then
      after.nodeUnless endsBlockEntry true false t.stop .blockSequence
    else if t.kind == .blockEnd then
      .event ⟨.sequenceEnd, t.start, t.stop⟩ after.resume
    else complain (.blockCollection t.kind.name) t

def indentlessSequence (g : Grammar) : Outcome :=
  match g.tokens with
  | [] => .exhausted
  | t :: rest =>
    if t.kind == .blockEntry then
      { g with tokens := rest }.nodeUnless endsIndentlessEntry true false t.stop .indentlessSequence
    else .event ⟨.sequenceEnd, t.start, t.start⟩ g.resume

def blockMappingKey (g : Grammar) : Outcome :=
  match g.tokens with
  | [] => .exhausted
  | t :: rest =>
    let after := { g with tokens := rest }
    if t.kind == .key then after.nodeUnless endsBlockPart true true t.stop .blockMappingValue
    else if t.kind == .blockEnd then .event ⟨.mappingEnd, t.start, t.stop⟩ after.resume
    else complain (.blockMapping t.kind.name) t

def blockMappingValue (g : Grammar) : Outcome :=
  match g.tokens with
  | [] => .exhausted
  | t :: rest =>
    if t.kind == .value then
      { g with tokens := rest }.nodeUnless endsBlockPart true true t.stop .blockMappingKey
    else g.omitted t.start .blockMappingKey

/-! ## Flow collections -/

def endsFlowItem (k : TokenKind) : Bool :=
  k == .flowEntry || k == .flowSequenceEnd

def endsFlowValue (k : TokenKind) : Bool :=
  k == .flowEntry || k == .flowMappingEnd

def endsFlowPairKey (k : TokenKind) : Bool :=
  k == .value || endsFlowItem k

def endsFlowKey (k : TokenKind) : Bool :=
  k == .value || endsFlowValue k

/-- An item of a flow sequence; a key here starts a mapping of one pair. -/
def flowItem (g : Grammar) : Outcome :=
  match g.tokens with
  | [] => .exhausted
  | t :: rest =>
    if t.kind == .key then
      .event ⟨.mappingStart ⟨none, none⟩, t.start, t.stop⟩ { g with expect := .flowPairKey }
    else if t.kind == .flowSequenceEnd then
      .event ⟨.sequenceEnd, t.start, t.stop⟩ { g with tokens := rest }.resume
    else (g.thenExpect .flowSequence).node false false

/-- After an item of a flow sequence: a comma and the next item, or the end. -/
def flowSequence (g : Grammar) : Outcome :=
  match g.tokens with
  | [] => .exhausted
  | t :: rest =>
    if t.kind == .flowSequenceEnd then g.flowItem
    else if t.kind == .flowEntry then { g with tokens := rest }.flowItem
    else complain (.flowSequence t.kind.name) t

/-- The key of a pair in a flow sequence; the key token is next. -/
def flowPairKey (g : Grammar) : Outcome :=
  match g.tokens with
  | [] => .exhausted
  | t :: rest =>
    { g with tokens := rest }.nodeUnless endsFlowPairKey false false
      t.stop .flowPairValue

def flowPairValue (g : Grammar) : Outcome :=
  match g.tokens with
  | [] => .exhausted
  | t :: rest =>
    if t.kind == .value then
      { g with tokens := rest }.nodeUnless endsFlowItem false false t.stop .flowPairEnd
    else g.omitted t.start .flowPairEnd

def flowPairEnd (g : Grammar) : Outcome :=
  match g.tokens with
  | [] => .exhausted
  | t :: _ => .event ⟨.mappingEnd, t.start, t.start⟩ { g with expect := .flowSequence }

/-- A key of a flow mapping, or a node without a value, or the end. -/
def flowEntry (g : Grammar) : Outcome :=
  match g.tokens with
  | [] => .exhausted
  | t :: rest =>
    if t.kind == .key then
      { g with tokens := rest }.nodeUnless endsFlowKey false false
        t.stop .flowMappingValue
    else if t.kind == .flowMappingEnd then
      .event ⟨.mappingEnd, t.start, t.stop⟩ { g with tokens := rest }.resume
    else (g.thenExpect .flowMappingEmptyValue).node false false

/-- After an entry of a flow mapping: a comma and the next entry, or the end. -/
def flowMappingKey (g : Grammar) : Outcome :=
  match g.tokens with
  | [] => .exhausted
  | t :: rest =>
    if t.kind == .flowMappingEnd then g.flowEntry
    else if t.kind == .flowEntry then { g with tokens := rest }.flowEntry
    else complain (.flowMapping t.kind.name) t

def flowMappingValue (g : Grammar) : Outcome :=
  match g.tokens with
  | [] => .exhausted
  | t :: rest =>
    if t.kind == .value then
      { g with tokens := rest }.nodeUnless endsFlowValue false false t.stop .flowMappingKey
    else g.omitted t.start .flowMappingKey

def flowMappingEmptyValue (g : Grammar) : Outcome :=
  match g.tokens with
  | [] => .exhausted
  | t :: _ => g.omitted t.start .flowMappingKey

/-! ## Steps -/

def opened (g : Grammar) : Grammar :=
  { g with tokens := g.tokens.drop 1 }

def step (g : Grammar) : Outcome :=
  match g.expect with
  | .firstDocument => g.firstDocument
  | .document => g.document
  | .documentContent => g.documentContent
  | .documentEnd => g.documentEnd
  | .blockNode => g.node true false
  | .blockSequenceFirst => g.opened.blockSequence
  | .blockSequence => g.blockSequence
  | .indentlessSequence => g.indentlessSequence
  | .blockMappingFirst => g.opened.blockMappingKey
  | .blockMappingKey => g.blockMappingKey
  | .blockMappingValue => g.blockMappingValue
  | .flowSequenceFirst => g.opened.flowItem
  | .flowSequence => g.flowSequence
  | .flowPairKey => g.flowPairKey
  | .flowPairValue => g.flowPairValue
  | .flowPairEnd => g.flowPairEnd
  | .flowMappingFirst => g.opened.flowEntry
  | .flowMappingKey => g.flowMappingKey
  | .flowMappingValue => g.flowMappingValue
  | .flowMappingEmptyValue => g.flowMappingEmptyValue

/-- The state at the start of a stream; its first token only marks the start. -/
def ofTokens (tokens : List Token) : Grammar :=
  ⟨tokens.drop 1, .firstDocument, [], defaultHandles⟩

end Grammar

/-- The events of a token stream in order, and what stopped them early. -/
structure EventStream where
  events : List Event
  halt : Option Halt
deriving Repr

namespace EventStream

/-- Events up to the end of the stream. When the tokens run out, what stopped the tokens stops the
events. -/
def runFrom (tokenHalt : Option Halt) : Nat → Grammar → EventStream
  | 0, _ => ⟨[], tokenHalt⟩
  | fuel + 1, g =>
    match g.step with
    | .exhausted => ⟨[], tokenHalt⟩
    | .fault f => ⟨[], some (.fault f)⟩
    | .event e next =>
      if e.kind == .streamEnd then ⟨[e], none⟩
      else
        let rest := runFrom tokenHalt fuel next
        { rest with events := e :: rest.events }

/-- A bound on the number of events: between two tokens there are at most a few events that read
none. -/
def steps (tokens : List Token) : Nat :=
  8 * tokens.length + 16

def ofTokens (s : TokenStream) : EventStream :=
  runFrom s.halt (steps s.tokens) (Grammar.ofTokens s.tokens)

end EventStream
end Yaml
end YamlServer
