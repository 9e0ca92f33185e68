import YamlServer.Text.Utf8

/-!
# What can be wrong with a text

The causes of failure of reading YAML, one type for each level of reading, and their wording. A
message has the construct being read, if that helps, and the complaint.

* `Problem`: a cause of any level.
* `Fault`: a cause and the index of the character it is about.
* `Halt`: how reading stops, by a fault or by an escape or a numeral with no value.
-/

namespace YamlServer
namespace Yaml

/-! ## Characters and tokens -/

/-- The construct in which a character was expected. -/
inductive LexPlace where
  | directive
  | anchor
  | alias
  | tag
  | directiveUri
  | tagUri
  | blockScalar
  | doubleQuoted
deriving Repr, DecidableEq

def LexPlace.text : LexPlace → String
  | .directive => "while scanning a directive"
  | .anchor => "while scanning an anchor"
  | .alias => "while scanning an alias"
  | .tag => "while scanning a tag"
  | .directiveUri => "while parsing a directive"
  | .tagUri => "while parsing a tag"
  | .blockScalar => "while scanning a block scalar"
  | .doubleQuoted => "while scanning a double-quoted scalar"

inductive Expectation where
  | nameCharacter
  | digit
  | digitOrPoint
  | digitOrSpace
  | space
  | commentOrBreak
  | closingAngle
  | handleMark
  | uri
  | uriEscape
  | blockIndicators
  | hexDigits (count : Nat)
deriving Repr, DecidableEq

def Expectation.text : Expectation → String
  | .nameCharacter => "alphabetic or numeric character"
  | .digit => "a digit"
  | .digitOrPoint => "a digit or '.'"
  | .digitOrSpace => "a digit or ' '"
  | .space => "' '"
  | .commentOrBreak => "a comment or a line break"
  | .closingAngle => "'>'"
  | .handleMark => "'!'"
  | .uri => "URI"
  | .uriEscape => "URI escape sequence of 2 hexadecimal numbers"
  | .blockIndicators => "chomping or indentation indicators"
  | .hexDigits count => "escape sequence of " ++ toString count ++ " hexadecimal numbers"

inductive BlockPart where
  | sequenceEntry
  | mappingKey
  | mappingValue
deriving Repr, DecidableEq

def BlockPart.text : BlockPart → String
  | .sequenceEntry => "sequence entries are not allowed here"
  | .mappingKey => "mapping keys are not allowed here"
  | .mappingValue => "mapping values are not allowed here"

inductive LexProblem where
  | keyWithoutColon
  | strayCharacter (c : Char)
  | misplaced (part : BlockPart)
  | expected (place : LexPlace) (what : Expectation) (found : Char)
  | zeroIndentation
  | unknownEscape (c : Char)
  | endInQuotes
  | documentMarkInQuotes
  | undecodable (place : LexPlace) (fault : Utf8.Fault)
deriving Repr, DecidableEq

def LexProblem.context? : LexProblem → Option String
  | .keyWithoutColon => some "while scanning a simple key"
  | .strayCharacter _ => some "while scanning for the next token"
  | .misplaced _ => none
  | .expected place _ _ => some place.text
  | .zeroIndentation => some LexPlace.blockScalar.text
  | .unknownEscape _ => some LexPlace.doubleQuoted.text
  | .endInQuotes => some "while scanning a quoted scalar"
  | .documentMarkInQuotes => some "while scanning a quoted scalar"
  | .undecodable place _ => some place.text

def LexProblem.complaint : LexProblem → String
  | .keyWithoutColon => "could not find expected ':'"
  | .strayCharacter c =>
    "found character " ++ Text.quotedSingle c ++ " that cannot start any token"
  | .misplaced part => part.text
  | .expected _ what found =>
    "expected " ++ what.text ++ ", but found " ++ Text.quotedSingle found
  | .zeroIndentation => "expected indentation indicator in the range 1-9, but found 0"
  | .unknownEscape c => "found unknown escape character " ++ Text.quotedSingle c
  | .endInQuotes => "found unexpected end of stream"
  | .documentMarkInQuotes => "found unexpected document separator"
  | .undecodable _ fault => fault.message

/-! ## Grammar -/

/-- The construct whose grammar is broken; `found` is the name of the offending token. -/
inductive GrammarProblem where
  | documentStart (found : String)
  | duplicateVersion
  | incompatibleVersion
  | duplicateHandle (handle : String)
  | undefinedHandle (handle : String)
  | nodeContent (block : Bool) (found : String)
  | blockCollection (found : String)
  | blockMapping (found : String)
  | flowSequence (found : String)
  | flowMapping (found : String)
deriving Repr, DecidableEq

def GrammarProblem.context? : GrammarProblem → Option String
  | .documentStart _ | .duplicateVersion | .incompatibleVersion | .duplicateHandle _ => none
  | .undefinedHandle _ => some "while parsing a node"
  | .nodeContent block _ =>
    some (if block then "while parsing a block node" else "while parsing a flow node")
  | .blockCollection _ => some "while parsing a block collection"
  | .blockMapping _ => some "while parsing a block mapping"
  | .flowSequence _ => some "while parsing a flow sequence"
  | .flowMapping _ => some "while parsing a flow mapping"

def GrammarProblem.complaint : GrammarProblem → String
  | .documentStart found => "expected '<document start>', but found " ++ Text.quoted found
  | .duplicateVersion => "found duplicate YAML directive"
  | .incompatibleVersion => "found incompatible YAML document (version 1.* is required)"
  | .duplicateHandle handle => "duplicate tag handle " ++ Text.quoted handle
  | .undefinedHandle handle => "found undefined tag handle " ++ Text.quoted handle
  | .nodeContent _ found => "expected the node content, but found " ++ Text.quoted found
  | .blockCollection found => "expected <block end>, but found " ++ Text.quoted found
  | .blockMapping found => "expected <block end>, but found " ++ Text.quoted found
  | .flowSequence found => "expected ',' or ']', but got " ++ Text.quoted found
  | .flowMapping found => "expected ',' or '\x7d', but got " ++ Text.quoted found

/-! ## Anchors and documents -/

inductive AnchorProblem where
  | undefinedAlias (name : String)
  | duplicateAnchor (name : String)
  | secondDocument
deriving Repr, DecidableEq

def AnchorProblem.context? : AnchorProblem → Option String
  | .undefinedAlias _ => none
  | .duplicateAnchor name =>
    some ("found duplicate anchor " ++ Text.quoted name ++ "; first occurrence")
  | .secondDocument => some "expected a single document in the stream"

def AnchorProblem.complaint : AnchorProblem → String
  | .undefinedAlias name => "found undefined alias " ++ Text.quoted name
  | .duplicateAnchor _ => "second occurrence"
  | .secondDocument => "but found another document"

/-! ## Data -/

/-- What the data of a node cannot be; `found` is the kind of the offending node. -/
inductive DataProblem where
  | expectedScalar (found : String)
  | expectedSequence (found : String)
  | expectedMapping (found : String)
  | unhashableKey
  | mergeItem (found : String)
  | mergeValue (found : String)
  | unknownTag (tag : String)
  | orderedMapSequence (found : String)
  | orderedMapItem (found : String)
  | orderedMapItems (count : Nat)
  | pairsSequence (found : String)
  | pairsItem (found : String)
  | pairsItems (count : Nat)
  | notAscii (text : String)
  | notBase64 (text : String)
deriving Repr, DecidableEq

def DataProblem.context? : DataProblem → Option String
  | .unhashableKey | .mergeItem _ | .mergeValue _ => some "while constructing a mapping"
  | .orderedMapSequence _ | .orderedMapItem _ | .orderedMapItems _ =>
    some "while constructing an ordered map"
  | .pairsSequence _ | .pairsItem _ | .pairsItems _ => some "while constructing pairs"
  | _ => none

def DataProblem.complaint : DataProblem → String
  | .expectedScalar found => "expected a scalar node, but found " ++ found
  | .expectedSequence found => "expected a sequence node, but found " ++ found
  | .expectedMapping found => "expected a mapping node, but found " ++ found
  | .unhashableKey => "found unhashable key"
  | .mergeItem found => "expected a mapping for merging, but found " ++ found
  | .mergeValue found => "expected a mapping or list of mappings for merging, but found " ++ found
  | .unknownTag tag => "could not determine a constructor for the tag " ++ Text.quoted tag
  | .orderedMapSequence found | .pairsSequence found => "expected a sequence, but found " ++ found
  | .orderedMapItem found | .pairsItem found =>
    "expected a mapping of length 1, but found " ++ found
  | .orderedMapItems count | .pairsItems count =>
    "expected a single mapping item, but found " ++ toString count ++ " items"
  | .notAscii text => "failed to convert base64 data into ascii: " ++ text
  | .notBase64 text => "failed to decode base64 data: " ++ text

/-! ## All levels -/

inductive Problem where
  | character (c : Char)
  | lex (p : LexProblem)
  | grammar (p : GrammarProblem)
  | anchor (p : AnchorProblem)
  | data (p : DataProblem)
deriving Repr, DecidableEq

structure Fault where
  problem : Problem
  offset : Nat
deriving Repr, DecidableEq

def sentence (context? : Option String) (complaint : String) : String :=
  match context? with
  | some context => context ++ ", " ++ complaint
  | none => complaint

def Fault.message (f : Fault) : String :=
  match f.problem with
  | .character c =>
    "unacceptable character #x" ++ String.ofList (Text.hexDigits 4 c.toNat) ++
      ": special characters are not allowed\n  in \"<unicode string>\", position " ++
      toString f.offset
  | .lex p => sentence p.context? p.complaint
  | .grammar p => sentence p.context? p.complaint
  | .anchor p => sentence p.context? p.complaint
  | .data p => sentence p.context? p.complaint

/-- How reading tokens stops early: by a fault, by an escape whose number is no character, or by a
version number too long to be read. -/
inductive Halt where
  | fault (f : Fault)
  | codePoint (n : Nat)
  | longNumeral
deriving Repr, DecidableEq

def Halt.lex (p : LexProblem) (offset : Nat) : Halt :=
  .fault ⟨.lex p, offset⟩

end Yaml
end YamlServer
