import YamlServer.Yaml.Token.Block
import YamlServer.Yaml.Token.Plain

/-!
# The token stream of a text

Tokens are read one at a time into a queue. A token that could turn out to be the key of a mapping
holds the queue back until the text after it decides: a colon puts a key token, and where a block
mapping starts its start token, in front of it. Indentation opens and closes block collections; in
flow collections it does not count.

* `Lexer`: the state between two tokens.
* `Lexer.fetch`: read on until at least one more token is queued.
* `TokenStream`: the tokens that leave the queue, in order, and what stopped the reading early.
* `TokenStream.ofText`: the stream of a text.
-/

namespace YamlServer
namespace Yaml

/-- A token that may become a mapping key: its number in the stream and where it starts. A required
key starts a line of a block mapping, so that nothing else can be meant. -/
structure SimpleKey where
  number : Nat
  required : Bool
  mark : Mark
deriving Repr, DecidableEq

/-- The state between two tokens. `flow` counts open flow collections and goes below zero when more
are closed than opened. `taken` counts the tokens that left the queue. -/
structure Lexer where
  cursor : Cursor
  finished : Bool
  flow : Int
  queue : List Token
  taken : Nat
  indent : Int
  outer : List Int
  keyAllowed : Bool
  keys : List (Int × SimpleKey)
deriving Repr

namespace Lexer

def ofText (cs : List Char) : Lexer :=
  let c := Cursor.ofText cs
  ⟨c, false, 0, [⟨.streamStart, c.mark, c.mark⟩], 0, -1, [], true, []⟩

def inFlow (s : Lexer) : Bool :=
  s.flow != 0

def mark (s : Lexer) : Mark :=
  s.cursor.mark

def push (t : Token) (s : Lexer) : Lexer :=
  { s with queue := s.queue ++ [t] }

def pushHere (kind : TokenKind) (s : Lexer) : Lexer :=
  s.push ⟨kind, s.mark, s.mark⟩

def pushIndicator (kind : TokenKind) (n : Nat) (s : Lexer) : Lexer :=
  let next := s.cursor.advance n
  { s.push ⟨kind, s.mark, next.mark⟩ with cursor := next }

/-! ## Keys -/

def key? (s : Lexer) : Option SimpleKey :=
  (s.keys.find? fun k => k.1 == s.flow).map (·.2)

def keyFault (s : Lexer) : Halt :=
  .lex .keyWithoutColon s.mark.index

/-- A possible key is out of reach once its line ends or 1024 characters have passed. -/
def isStale (s : Lexer) (k : SimpleKey) : Bool :=
  k.mark.line != s.mark.line || s.mark.index - k.mark.index > 1024

/-- Forget the keys out of reach; a required one must not be among them. -/
def dropStale (s : Lexer) : Except Halt Lexer :=
  if s.keys.any fun k => s.isStale k.2 && k.2.required then .error s.keyFault
  else .ok { s with keys := s.keys.filter fun k => !s.isStale k.2 }

/-- Forget the possible key of the current flow level; it must not be required. -/
def dropKey (s : Lexer) : Except Halt Lexer :=
  match s.key? with
  | some k =>
    if k.required then .error s.keyFault
    else .ok { s with keys := s.keys.filter fun k => k.1 != s.flow }
  | none => .ok s

def saveKey (s : Lexer) : Except Halt Lexer :=
  if s.keyAllowed then do
    let required := !s.inFlow && s.indent == Int.ofNat s.mark.column
    let s ← s.dropKey
    return { s with keys := s.keys ++ [(s.flow, ⟨s.taken + s.queue.length, required, s.mark⟩)] }
  else .ok s

/-- Whether the token at the head of the queue may still become a key. -/
def headUndecided (s : Lexer) : Bool :=
  s.keys.any fun k => k.2.number == s.taken

/-! ## Indentation -/

/-- Close the block collections that are indented further than a column. -/
def unwindFrom (column : Int) (s : Lexer) : List Int → Lexer
  | [] => s
  | indent :: rest =>
    if s.indent > column then
      unwindFrom column { s.pushHere .blockEnd with indent := indent, outer := rest } rest
    else s

def unwind (column : Int) (s : Lexer) : Lexer :=
  if s.inFlow then s else s.unwindFrom column s.outer

/-- Open a block collection at a column, if it is indented further than the current one. -/
def openBlock? (column : Nat) (s : Lexer) : Option Lexer :=
  if s.indent < Int.ofNat column then
    some { s with indent := Int.ofNat column, outer := s.indent :: s.outer }
  else none

def openHere (kind : TokenKind) (s : Lexer) : Lexer :=
  match s.openBlock? s.mark.column with
  | some opened => opened.pushHere kind
  | none => s

/-! ## Reading one token -/

/-- Blanks, comments and line breaks between tokens: where they end, and whether a line ended. -/
def gapFrom (inComment : Bool) : List Char → Mark → Bool → Cursor × Bool
  | [], m, broke => (⟨[], m⟩, broke)
  | c :: rest, m, broke =>
    let next := m.after c (rest.headD endChar)
    if isBreak c then gapFrom false rest next true
    else if inComment then gapFrom true rest next broke
    else if c == ' ' then gapFrom false rest next broke
    else if c == '#' then gapFrom true rest next broke
    else (⟨c :: rest, m⟩, broke)

/-- Move to the next token. A byte order mark at the very start is passed over; after a line break
outside flow collections a key may start. -/
def skipGap (s : Lexer) : Lexer :=
  let c := s.cursor
  let start := if c.mark.index == 0 && c.peek == byteOrderMark then c.skip else c
  let (next, broke) := gapFrom false start.rest start.mark false
  { s with cursor := next, keyAllowed := s.keyAllowed || (broke && !s.inFlow) }

def fetchStreamEnd (s : Lexer) : Except Halt Lexer := do
  let s ← (s.unwind (-1)).dropKey
  let s := { s with keyAllowed := false, keys := [] }
  return { s.pushHere .streamEnd with finished := true }

def fetchDirective (s : Lexer) : Except Halt Lexer := do
  let s ← (s.unwind (-1)).dropKey
  let (token, next) ← readDirective s.cursor
  return { s.push token with keyAllowed := false, cursor := next }

def fetchDocumentMark (kind : TokenKind) (s : Lexer) : Except Halt Lexer := do
  let s ← (s.unwind (-1)).dropKey
  return { s with keyAllowed := false }.pushIndicator kind 3

def fetchFlowStart (kind : TokenKind) (s : Lexer) : Except Halt Lexer := do
  let s ← s.saveKey
  return { s with flow := s.flow + 1, keyAllowed := true }.pushIndicator kind 1

def fetchFlowEnd (kind : TokenKind) (s : Lexer) : Except Halt Lexer := do
  let s ← s.dropKey
  return { s with flow := s.flow - 1, keyAllowed := false }.pushIndicator kind 1

def fetchFlowEntry (s : Lexer) : Except Halt Lexer := do
  let s ← { s with keyAllowed := true }.dropKey
  return s.pushIndicator .flowEntry 1

/-- Outside flow collections a block entry, key or value needs a place where a key may start. -/
def requireFresh (part : BlockPart) (s : Lexer) : Except Halt Lexer :=
  if s.inFlow || s.keyAllowed then .ok s else .error (.lex (.misplaced part) s.mark.index)

def fetchBlockEntry (s : Lexer) : Except Halt Lexer := do
  let s ← s.requireFresh .sequenceEntry
  let s := if s.inFlow then s else s.openHere .blockSequenceStart
  let s ← { s with keyAllowed := true }.dropKey
  return s.pushIndicator .blockEntry 1

def fetchKey (s : Lexer) : Except Halt Lexer := do
  let s ← s.requireFresh .mappingKey
  let s := if s.inFlow then s else s.openHere .blockMappingStart
  let s ← { s with keyAllowed := !s.inFlow }.dropKey
  return s.pushIndicator .key 1

/-- Insert tokens of no width in front of the token that turned out to be a key. -/
def insertBefore (k : SimpleKey) (kinds : List TokenKind) (s : Lexer) : Lexer :=
  let at_ := k.number - s.taken
  let tokens := kinds.map fun kind => Token.mk kind k.mark k.mark
  { s with queue := s.queue.take at_ ++ tokens ++ s.queue.drop at_ }

def fetchValueOf (k : SimpleKey) (s : Lexer) : Lexer :=
  let s := { s with keys := s.keys.filter fun k => k.1 != s.flow }
  let s :=
    if s.inFlow then s.insertBefore k [.key]
    else
      match s.openBlock? k.mark.column with
      | some opened => opened.insertBefore k [.blockMappingStart, .key]
      | none => s.insertBefore k [.key]
  { s with keyAllowed := false }.pushIndicator .value 1

def fetchValue (s : Lexer) : Except Halt Lexer :=
  match s.key? with
  | some k => .ok (s.fetchValueOf k)
  | none => do
    let s ← s.requireFresh .mappingValue
    let s := if s.inFlow then s else s.openHere .blockMappingStart
    let s ← { s with keyAllowed := !s.inFlow }.dropKey
    return s.pushIndicator .value 1

def fetchNodePart (read : Cursor → Except Halt (Token × Cursor)) (s : Lexer) :
    Except Halt Lexer := do
  let s ← s.saveKey
  let (token, next) ← read s.cursor
  return { s.push token with keyAllowed := false, cursor := next }

def fetchPlain (s : Lexer) : Except Halt Lexer := do
  let s ← s.saveKey
  let (token, broke, next) := readPlain s.inFlow s.indent s.cursor
  return { s.push token with keyAllowed := broke, cursor := next }

def fetchBlockScalar (folded : Bool) (s : Lexer) : Except Halt Lexer := do
  let s ← { s with keyAllowed := true }.dropKey
  let (token, next) ← readBlock folded s.indent s.cursor
  return { s.push token with cursor := next }

def fetchHere (s : Lexer) : Except Halt Lexer :=
  let c := s.cursor
  let a := c.peek
  let atLineStart := c.mark.column == 0
  let indicates := s.inFlow || isGap (c.peekAt 1)
  if a == endChar then s.fetchStreamEnd
  else if a == '%' && atLineStart then s.fetchDirective
  else if atLineStart && c.atSeparator '-' then s.fetchDocumentMark .documentStart
  else if atLineStart && c.atSeparator '.' then s.fetchDocumentMark .documentEnd
  else if a == '[' then s.fetchFlowStart .flowSequenceStart
  else if a == '\x7b' then s.fetchFlowStart .flowMappingStart
  else if a == ']' then s.fetchFlowEnd .flowSequenceEnd
  else if a == '\x7d' then s.fetchFlowEnd .flowMappingEnd
  else if a == ',' then s.fetchFlowEntry
  else if a == '-' && isGap (c.peekAt 1) then s.fetchBlockEntry
  else if a == '?' && indicates then s.fetchKey
  else if a == ':' && indicates then s.fetchValue
  else if a == '*' then s.fetchNodePart (readAnchor true)
  else if a == '&' then s.fetchNodePart (readAnchor false)
  else if a == '!' then s.fetchNodePart readTag
  else if a == '|' && !s.inFlow then s.fetchBlockScalar false
  else if a == '>' && !s.inFlow then s.fetchBlockScalar true
  else if a == '\'' then s.fetchNodePart (readQuoted false)
  else if a == '"' then s.fetchNodePart (readQuoted true)
  else if startsPlain s.inFlow c then s.fetchPlain
  else .error (.lex (.strayCharacter a) c.mark.index)

/-- Read on: move to the next token, close what its indentation ends, and read it. -/
def fetch (s : Lexer) : Except Halt Lexer := do
  let s ← s.skipGap.dropStale
  (s.unwind (Int.ofNat s.mark.column)).fetchHere

end Lexer

/-! ## The stream -/

/-- The tokens of a text in order, and what stopped the reading early. Tokens that were still held
back then are not part of it. -/
structure TokenStream where
  tokens : List Token
  halt : Option Halt
deriving Repr

namespace TokenStream

def cons (t : Token) (s : TokenStream) : TokenStream :=
  { s with tokens := t :: s.tokens }

/-- Take tokens from the queue while its head is decided, and read on otherwise. -/
def runFrom : Nat → Lexer → TokenStream
  | 0, _ => ⟨[], none⟩
  | fuel + 1, s =>
    let readOn (s : Lexer) : TokenStream :=
      match s.fetch with
      | .ok next => runFrom fuel next
      | .error halt => ⟨[], some halt⟩
    match s.queue with
    | [] => if s.finished then ⟨[], none⟩ else readOn s
    | t :: rest =>
      let take (s : Lexer) : TokenStream :=
        (runFrom fuel { s with queue := rest, taken := s.taken + 1 }).cons t
      if s.finished then take s
      else
        match s.dropStale with
        | .error halt => ⟨[], some halt⟩
        | .ok s => if s.headUndecided then readOn s else take s

/-- A bound on the number of steps: every reading step moves past a character or is the last, and
queues at most one token for each open block and a few more. -/
def steps (cs : List Char) : Nat :=
  8 * cs.length + 16

/-- The first character that a text must not hold, with its index. -/
def forbiddenFrom (index : Nat) : List Char → Option (Char × Nat)
  | [] => none
  | c :: rest =>
    let n := c.toNat
    if c == '\t' || c == '\n' || c == '\r' || (0x20 ≤ n && n ≤ 0x7e) || n == 0x85 ||
        (0xa0 ≤ n && n ≤ 0xfffd) || 0x10000 ≤ n then
      forbiddenFrom (index + 1) rest
    else some (c, index)

/-- The token stream of a text. A text with a forbidden character has no tokens. -/
def ofChars (cs : List Char) : TokenStream :=
  match forbiddenFrom 0 cs with
  | some (c, index) => ⟨[], some (.fault ⟨.character c, index⟩)⟩
  | none => runFrom (steps cs) (Lexer.ofText cs)

def ofText (text : String) : TokenStream :=
  ofChars text.toList

end TokenStream
end Yaml
end YamlServer
