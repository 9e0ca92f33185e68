/-!
# Blank characters

Which characters count as blank, and the operations on text that follow from it: trimming at either
end and splitting into words. The class is wider than that of YAML itself: it has the four
information separators and the spaces of every width.
-/

namespace YamlServer
namespace Text

def isBlank (c : Char) : Bool :=
  let n := c.toNat
  (0x9 ≤ n && n ≤ 0xd) || (0x1c ≤ n && n ≤ 0x20) || n == 0x85 || n == 0xa0 || n == 0x1680 ||
    (0x2000 ≤ n && n ≤ 0x200a) || n == 0x2028 || n == 0x2029 || n == 0x202f || n == 0x205f ||
    n == 0x3000

def dropEndWhile {α : Type _} (p : α → Bool) (xs : List α) : List α :=
  (xs.reverse.dropWhile p).reverse

def trimEnd (cs : List Char) : List Char :=
  dropEndWhile isBlank cs

def allBlank (cs : List Char) : Bool :=
  cs.all isBlank

/-- The maximal runs of non-blank characters; `word` is the run being read, backwards. -/
def wordsFrom (word : List Char) : List Char → List (List Char)
  | [] => if word.isEmpty then [] else [word.reverse]
  | c :: rest =>
    if isBlank c then
      if word.isEmpty then wordsFrom [] rest else word.reverse :: wordsFrom [] rest
    else wordsFrom (c :: word) rest

/-- The words of a text: its maximal runs of non-blank characters. -/
def words (s : String) : List String :=
  (wordsFrom [] s.toList).map String.ofList

end Text
end YamlServer
