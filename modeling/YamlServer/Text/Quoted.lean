import YamlServer.Text.Printable

/-!
# Quoted text

A text between quotes, as messages show it. Single quotes are preferred; double quotes are used
when the text holds a single quote and no double one. The quote in use, the backslash and whatever
is not printable are escaped, a line feed, carriage return and tab by their letters and the others
by the shortest of `\x`, `\u` and `\U` that has enough digits.
-/

namespace YamlServer
namespace Text

/-- The lower-case hexadecimal digits of `n`, filled with zeros to `width`. -/
def hexDigits (width n : Nat) : List Char :=
  let digits := Nat.toDigits 16 n
  List.replicate (width - digits.length) '0' ++ digits

def quotedChar (quote c : Char) : List Char :=
  if c == quote || c == '\\' then ['\\', c]
  else if c == '\n' then ['\\', 'n']
  else if c == '\r' then ['\\', 'r']
  else if c == '\t' then ['\\', 't']
  else if printable.mem c then [c]
  else if c.toNat ≤ 0xff then '\\' :: 'x' :: hexDigits 2 c.toNat
  else if c.toNat ≤ 0xffff then '\\' :: 'u' :: hexDigits 4 c.toNat
  else '\\' :: 'U' :: hexDigits 8 c.toNat

def quoteFor (cs : List Char) : Char :=
  if cs.contains '\'' && !cs.contains '"' then '"' else '\''

def quotedChars (cs : List Char) : List Char :=
  let quote := quoteFor cs
  quote :: cs.flatMap (quotedChar quote) ++ [quote]

def quoted (s : String) : String :=
  String.ofList (quotedChars s.toList)

def quotedSingle (c : Char) : String :=
  String.ofList (quotedChars [c])

end Text
end YamlServer
