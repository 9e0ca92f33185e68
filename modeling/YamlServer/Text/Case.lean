import YamlServer.Text.CaseTable

/-!
# Small letters

The lower-case form of a text. Three rules beyond the table of single letters:

* a capital I with a dot becomes a small i followed by a combining dot;
* a capital sigma at the end of a word becomes the final small sigma. It is at the end when the
  nearest character before it that is not passed over is a letter, and the nearest one after it
  is not.
-/

namespace YamlServer
namespace Text

/-- The one-character lower-case form of a code point, looked up in runs of capitals. -/
def lowerCode (n : Nat) : List CaseRun → Nat
  | [] => n
  | run :: rest =>
    if run.first ≤ n && n ≤ run.last && (n - run.first) % run.step == 0 then
      (Int.ofNat n + run.shift).toNat
    else lowerCode n rest

def lowerChar (c : Char) : Char :=
  if c.toNat < 0x80 then
    if 'A' ≤ c ∧ c ≤ 'Z' then Char.ofNat (c.toNat + 32) else c
  else Char.ofNat (lowerCode c.toNat lowerRuns)

/-- Whether the nearest character that is not passed over is a letter. -/
def meetsCased (cs : List Char) : Bool :=
  match cs.dropWhile caseIgnorable.mem with
  | [] => false
  | c :: _ => cased.mem c

/-- Lower case of a text, `before` being what precedes it, nearest first. -/
def lowerFrom (before : List Char) : List Char → List Char
  | [] => []
  | c :: rest =>
    let small :=
      if c == 'Σ' then [if meetsCased before && !meetsCased rest then 'ς' else 'σ']
      else if c == 'İ' then ['i', Char.ofNat 0x307]
      else [lowerChar c]
    small ++ lowerFrom (c :: before) rest

def lower (s : String) : String :=
  String.ofList (lowerFrom [] s.toList)

/-- The Latin capital that is the upper-case form of `c`, if there is one, and `c` otherwise. -/
def latinCapital (c : Char) : Char :=
  if 'a' ≤ c ∧ c ≤ 'z' then Char.ofNat (c.toNat - 32)
  else if c == 'ı' then 'I'
  else if c == 'ſ' then 'S'
  else c

/-- A text with every letter that has a Latin capital replaced by it. -/
def latinUpper (s : String) : String :=
  String.ofList (s.toList.map latinCapital)

end Text
end YamlServer
