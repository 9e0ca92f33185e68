import YamlServer.Text.Quoted

/-!
# Base 64

Decoding of base 64 text. Characters outside the alphabet are passed over, and so are padding signs
that come too early; the padding that completes a group of four ends the text.

* `Base64.sextets`: the values of the digits, and whether padding ended the text.
* `Base64.decode`: the bytes, or the first fault.
-/

namespace YamlServer
namespace Base64

/-- Text beyond ASCII in a range of positions, a last group of two or three digits without padding,
and a last group of one digit, after so many digits in all. -/
inductive Fault where
  | notAscii (c : Char) (first last : Nat)
  | padding
  | digitCount (count : Nat)
deriving Repr, DecidableEq

def escaped (c : Char) : List Char :=
  if c.toNat ≤ 0xff then '\\' :: 'x' :: Text.hexDigits 2 c.toNat
  else if c.toNat ≤ 0xffff then '\\' :: 'u' :: Text.hexDigits 4 c.toNat
  else '\\' :: 'U' :: Text.hexDigits 8 c.toNat

def Fault.message : Fault → String
  | .notAscii c first last =>
    "'ascii' codec can't encode " ++
      (if first == last then
        "character '" ++ String.ofList (escaped c) ++ "' in position " ++ toString first
      else "characters in position " ++ toString first ++ "-" ++ toString last) ++
      ": ordinal not in range(128)"
  | .padding => "Incorrect padding"
  | .digitCount count =>
    "Invalid base64-encoded string: number of data characters (" ++ toString count ++
      ") cannot be 1 more than a multiple of 4"

def digit? (c : Char) : Option Nat :=
  if 'A' ≤ c ∧ c ≤ 'Z' then some (c.toNat - 'A'.toNat)
  else if 'a' ≤ c ∧ c ≤ 'z' then some (c.toNat - 'a'.toNat + 26)
  else if '0' ≤ c ∧ c ≤ '9' then some (c.toNat - '0'.toNat + 52)
  else if c == '+' then some 62
  else if c == '/' then some 63
  else none

/-- The values of the digits, and whether padding ended the text. There are `place` digits in the
group being read, and `pads` padding signs since the last digit. -/
def sextets (place pads : Nat) : List Char → List Nat × Bool
  | [] => ([], false)
  | c :: rest =>
    if c == '=' then
      if place < 2 then sextets place pads rest
      else if place + pads + 1 ≥ 4 then ([], true)
      else sextets place (pads + 1) rest
    else
      match digit? c with
      | some d =>
        let (ds, ended) := sextets ((place + 1) % 4) 0 rest
        (d :: ds, ended)
      | none => sextets place pads rest

/-- The bytes of a list of digits, four digits giving three bytes; bits that do not fill a byte are
dropped. -/
def bytes : List Nat → List UInt8
  | a :: b :: c :: d :: rest =>
    (a * 4 + b / 16).toUInt8 :: (b % 16 * 16 + c / 4).toUInt8 :: (c % 4 * 64 + d).toUInt8 ::
      bytes rest
  | [a, b, c] => [(a * 4 + b / 16).toUInt8, (b % 16 * 16 + c / 4).toUInt8]
  | [a, b] => [(a * 4 + b / 16).toUInt8]
  | _ => []

/-- The first run of characters beyond ASCII, after `pos` characters. -/
def beyondAscii? (pos : Nat) : List Char → Option Fault
  | [] => none
  | c :: rest =>
    if c.toNat < 128 then beyondAscii? (pos + 1) rest
    else
      let run := rest.takeWhile fun a => a.toNat ≥ 128
      some (.notAscii c pos (pos + run.length))

def decode (cs : List Char) : Except Fault (List UInt8) :=
  match beyondAscii? 0 cs with
  | some f => .error f
  | none =>
    let (ds, ended) := sextets 0 0 cs
    if ended || ds.length % 4 == 0 then .ok (bytes ds)
    else if ds.length % 4 == 1 then .error (.digitCount ds.length)
    else .error .padding

end Base64
end YamlServer
