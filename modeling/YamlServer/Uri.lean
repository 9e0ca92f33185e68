import YamlServer.Text.Digit
import YamlServer.Text.Utf8

/-!
# Addresses

The parts of an address that the server needs: percent escapes, and the path of a `file:` address.

* `Uri.unquote`: the text with its percent escapes decoded. Bytes that are no UTF-8 become
  replacement characters.
* `Uri.filePath`: the path of a `file:` address; the authority in it is checked and dropped.
* `Uri.rootPath`: the directory that a client opens.
-/

namespace YamlServer
namespace Uri

open Text

def escapedBytes : List Char → List UInt8 × List Char
  | '%' :: a :: b :: rest =>
    if isHexDigit a && isHexDigit b then
      let (bytes, after) := escapedBytes rest
      ((ofHex [a, b]).toUInt8 :: bytes, after)
    else ([], '%' :: a :: b :: rest)
  | cs => ([], cs)

/-- Decode bytes, a replacement character standing for each part that is no UTF-8. -/
def decodeLossy : Nat → List UInt8 → List Char
  | 0, _ => []
  | fuel + 1, bytes =>
    match Utf8.decode bytes with
    | .ok cs => cs
    | .error f =>
      let good := match Utf8.decode (bytes.take f.first) with
        | .ok cs => cs
        | .error _ => []
      good ++ Char.ofNat 0xfffd :: decodeLossy fuel (bytes.drop (f.last + 1))

/-- The text with its percent escapes decoded; a lone percent sign stays. -/
def unquoteFrom : Nat → List Char → List Char
  | 0, cs => cs
  | fuel + 1, cs =>
    match cs with
    | [] => []
    | c :: rest =>
      if c == '%' then
        match escapedBytes cs with
        | ([], _) => c :: unquoteFrom fuel rest
        | (bytes, after) => decodeLossy (bytes.length + 1) bytes ++ unquoteFrom fuel after
      else c :: unquoteFrom fuel rest

def unquote (cs : List Char) : List Char :=
  unquoteFrom (cs.length + 1) cs

/-! ## Authorities -/

/-- Why an address is refused: its authority is malformed. -/
inductive Fault where
  | badAuthority
deriving Repr, DecidableEq

def delimiterForms : List Nat :=
  [0x2047, 0x2048, 0x2049, 0x2100, 0x2101, 0x2105, 0x2106, 0x2a74, 0xfe13, 0xfe16, 0xfe55, 0xfe56,
   0xfe5f, 0xfe6b, 0xff03, 0xff0f, 0xff1a, 0xff1f, 0xff20]

def splitOn (mark : Char) : List Char → List (List Char)
  | [] => [[]]
  | c :: rest =>
    match splitOn mark rest with
    | [] => [[c]]
    | part :: parts => if c == mark then [] :: part :: parts else (c :: part) :: parts

/-- Four decimal numbers of at most three digits, below 256 and without needless zeros. -/
def isQuad (cs : List Char) : Bool :=
  let parts := splitOn '.' cs
  parts.length == 4 && parts.all fun ds =>
    !ds.isEmpty && ds.length ≤ 3 && ds.all isAsciiDigit &&
      (ds.length == 1 || ds.head? != some '0') &&
      ofDigits 10 0 (ds.map fun c => c.toNat - '0'.toNat) < 256

/-- A group of an address: at most four hexadecimal digits. -/
def isGroup (cs : List Char) : Bool :=
  !cs.isEmpty && cs.length ≤ 4 && cs.all isHexDigit

/-- The groups on one side of a gap; the side may be empty. -/
def isSide (groups : List (List Char)) : Bool :=
  groups == [[]] || groups.all isGroup

/-- Eight groups with colons between them, of which one run may be left out as an empty group. The
last two may be written as four decimal numbers. -/
def isGroups (cs : List Char) : Bool :=
  let parts := splitOn ':' cs
  let last := parts.getLast?.getD []
  let parts := if last.contains '.' then parts.dropLast ++ [['0'], ['0']] else parts
  let gaps := ((parts.drop 1).dropLast.filter List.isEmpty).length
  let inner := (parts.drop 1).dropLast.takeWhile fun p => !p.isEmpty
  let quadFits := !last.contains '.' || isQuad last
  let fits :=
    if gaps == 0 then parts.length == 8 && parts.all isGroup
    else
      let front := parts.take (inner.length + 1)
      let back := parts.drop (inner.length + 2)
      let count :=
        (front.filter fun p => !p.isEmpty).length + (back.filter fun p => !p.isEmpty).length
      gaps == 1 && isSide front && isSide back && count ≤ 7
  (splitOn ':' cs).length ≥ 3 && parts.length ≤ 9 && quadFits && fits

/-- A numeric address between brackets: one of groups, with or without a zone after a percent sign,
or one of a later version. -/
def isBracketed (cs : List Char) : Bool :=
  match cs with
  | 'v' :: rest =>
    let digits := rest.takeWhile isHexDigit
    !digits.isEmpty &&
      match rest.dropWhile isHexDigit with
      | '.' :: tail => !tail.isEmpty && !tail.contains '\n'
      | _ => false
  | _ =>
    match splitOn '%' cs with
    | [address] => isGroups address
    | [address, zone] => !zone.isEmpty && isGroups address
    | _ => false

/-- An authority must have its brackets in pairs around a numeric address, and no character that
stands for text with a delimiter. -/
def isAuthority (cs : List Char) : Bool :=
  let opens := cs.contains '['
  let closes := cs.contains ']'
  let host := ((cs.dropWhile (· != '[')).drop 1).takeWhile (· != ']')
  opens == closes && (!opens || isBracketed host) &&
    !cs.any fun c => delimiterForms.contains c.toNat

def isDelimiter (c : Char) : Bool :=
  c == '/' || c == '?' || c == '#'

/-- The path of an address after `file://`, with its escapes decoded. Tabs and line breaks do not
count, and a query or a fragment is cut off. -/
def filePath (cs : List Char) : Except Fault String :=
  let cs := cs.filter fun c => c != '\t' && c != '\n' && c != '\r'
  let authority := cs.takeWhile fun c => !isDelimiter c
  let rest := cs.dropWhile fun c => !isDelimiter c
  if isAuthority authority then
    .ok (String.ofList (unquote (rest.takeWhile fun c => c != '?' && c != '#')))
  else .error .badAuthority

/-- The directory that a client opens: that of a `file:` address, any other text as it is, and none
if there is none. -/
def rootPath (uri : Option String) : Except Fault (Option String) :=
  match uri with
  | none | some "" => .ok none
  | some s =>
    match s.toList with
    | 'f' :: 'i' :: 'l' :: 'e' :: ':' :: '/' :: '/' :: rest => (filePath rest).map some
    | _ => .ok (some s)

end Uri
end YamlServer
