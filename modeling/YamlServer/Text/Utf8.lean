import YamlServer.Text.Quoted

/-!
# UTF-8

Decoding bytes, with the exact place and reason of a failure: the byte that cannot start a
character, the bytes before one that cannot continue it, or the incomplete character at the end.
Overlong forms, surrogates and code points beyond the last one are refused at the second byte.

* `Utf8.decode`: the characters, or the first fault.
* `Utf8.Fault.message`: its wording.
-/

namespace YamlServer
namespace Utf8

inductive Reason where
  | start
  | continuation
  | truncated
deriving Repr, DecidableEq

/-- The offending bytes `first … last`; `byte` is the one at `first`. -/
structure Fault where
  reason : Reason
  byte : Nat
  first : Nat
  last : Nat
deriving Repr, DecidableEq

def Reason.text : Reason → String
  | .start => "invalid start byte"
  | .continuation => "invalid continuation byte"
  | .truncated => "unexpected end of data"

def Fault.message (f : Fault) : String :=
  "'utf-8' codec can't decode " ++
    (if f.first == f.last then
      "byte 0x" ++ String.ofList (Text.hexDigits 2 f.byte) ++ " in position " ++ toString f.first
    else "bytes in position " ++ toString f.first ++ "-" ++ toString f.last) ++
    ": " ++ f.reason.text

def isContinuation (b : Nat) : Bool :=
  0x80 ≤ b && b < 0xc0

/-- The number of bytes that a leading byte asks for; zero when it cannot lead. -/
def width (b : Nat) : Nat :=
  if b < 0x80 then 1
  else if b < 0xc2 then 0
  else if b < 0xe0 then 2
  else if b < 0xf0 then 3
  else if b < 0xf5 then 4
  else 0

def secondFits (a b : Nat) : Bool :=
  isContinuation b &&
    (if a == 0xe0 then 0xa0 ≤ b
     else if a == 0xed then b < 0xa0
     else if a == 0xf0 then 0x90 ≤ b
     else if a == 0xf4 then b < 0x90
     else true)

/-- The continuation bytes after a leading byte, at most `count` of them: the longest start of
`rest` that fits. -/
def fitting (a count : Nat) (rest : List Nat) : List Nat :=
  match count, rest with
  | 0, _ => []
  | _, [] => []
  | n + 1, b :: more => if secondFits a b then b :: (more.take n).takeWhile isContinuation else []

def codePoint (a : Nat) (tail : List Nat) : Nat :=
  let lead := match tail.length with
    | 0 => a
    | 1 => a - 0xc0
    | 2 => a - 0xe0
    | _ => a - 0xf0
  tail.foldl (fun acc b => acc * 64 + (b - 0x80)) lead

/-- Decode from position `pos`; a leading byte is followed by `skip` bytes already taken. -/
def decodeFrom (pos skip : Nat) : List Nat → Except Fault (List Char)
  | [] => .ok []
  | a :: rest =>
    if skip > 0 then decodeFrom (pos + 1) (skip - 1) rest
    else if width a == 0 then .error ⟨.start, a, pos, pos⟩
    else
      let need := width a - 1
      let tail := fitting a need rest
      if tail.length == need then
        (decodeFrom (pos + 1) need rest).map (Char.ofNat (codePoint a tail) :: ·)
      else if rest.length == tail.length then .error ⟨.truncated, a, pos, pos + tail.length⟩
      else .error ⟨.continuation, a, pos, pos + tail.length⟩

def decode (bytes : List UInt8) : Except Fault (List Char) :=
  decodeFrom 0 0 (bytes.map UInt8.toNat)

end Utf8
end YamlServer
