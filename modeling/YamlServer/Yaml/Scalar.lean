import YamlServer.Number.Numeral
import YamlServer.Text.Case
import YamlServer.Value
import YamlServer.Yaml.Tag

/-!
# Values of scalars

The value that a scalar's text has under a tag: null, a truth value, an integer, a floating-point
number, or the text itself.

* `Scalar.Fault`: why a text has no value under its tag.
* `Scalar.int`: integers, with a sign, a base mark, or groups of base sixty.
* `Scalar.float`: floating-point numbers.
* `Scalar.plain?`: the value under one of the five plain tags.
-/

namespace YamlServer
namespace Yaml
namespace Scalar

/-- A word that is no truth value, a numeral of no characters, a numeral that cannot be read, and a
place value too large for a floating-point number. -/
inductive Fault where
  | notBoolean
  | emptyNumeral
  | malformed
  | tooLarge
deriving Repr, DecidableEq

def bool (content : String) : Except Fault Bool :=
  let word := Text.lower content
  if ["yes", "true", "on"].contains word then .ok true
  else if ["no", "false", "off"].contains word then .ok false
  else .error .notBoolean

def read {α : Type} : Option α → Except Fault α
  | some x => .ok x
  | none => .error .malformed

def sixties (parts : List Int) : Int :=
  parts.foldl (fun acc part => acc * 60 + part) 0

def unsignedInt (cs : List Char) : Except Fault Int :=
  match cs with
  | [] => .error .emptyNumeral
  | ['0'] => .ok 0
  | '0' :: 'b' :: rest => read (Numeral.int? 2 rest)
  | '0' :: 'x' :: rest => read (Numeral.int? 16 rest)
  | '0' :: _ => read (Numeral.int? 8 cs)
  | _ =>
    if cs.contains ':' then do
      let parts ← (Tag.splitColons cs).mapM fun part => read (Numeral.int? 10 part)
      return sixties parts
    else read (Numeral.int? 10 cs)

def ungrouped (content : String) : List Char :=
  content.toList.filter (· != '_')

def int (content : String) : Except Fault Int :=
  match ungrouped content with
  | [] => .error .emptyNumeral
  | '-' :: rest => (unsignedInt rest).map (- ·)
  | '+' :: rest => unsignedInt rest
  | cs => unsignedInt cs

/-- The sum of groups of base sixty, added up from the last one on, each step being rounded. -/
def floatSixties (place : Nat) (acc : Binary64) : List Binary64 → Except Fault Binary64
  | [] => .ok acc
  | part :: rest =>
    match Binary64.ofInt (Int.ofNat place) with
    | .infinite _ => .error .tooLarge
    | p => floatSixties (place * 60) (acc.add (part.mul p)) rest

def unsignedFloat (cs : List Char) : Except Fault Binary64 :=
  if cs == ".inf".toList then .ok (.infinite false)
  else if cs == ".nan".toList then .ok .nan
  else if cs.contains ':' then do
    let parts ← (Tag.splitColons cs).mapM fun part => read (Numeral.float? part)
    floatSixties 1 (.zero false) parts.reverse
  else read (Numeral.float? cs)

def float (content : String) : Except Fault Binary64 :=
  match (Text.lower (String.ofList (ungrouped content))).toList with
  | [] => .error .emptyNumeral
  | '-' :: rest => (unsignedFloat rest).map Binary64.neg
  | '+' :: rest => unsignedFloat rest
  | cs => unsignedFloat cs

/-- The value under one of the five plain tags; none under any other. -/
def plain? (tag content : String) : Option (Except Fault Value) :=
  if tag == Tag.null then some (.ok .null)
  else if tag == Tag.bool then some ((bool content).map Value.bool)
  else if tag == Tag.int then some ((int content).map Value.int)
  else if tag == Tag.float then some ((float content).map Value.float)
  else if tag == Tag.str then some (.ok (.str content))
  else none

end Scalar
end Yaml
end YamlServer
