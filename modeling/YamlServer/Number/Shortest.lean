import YamlServer.Number.Binary64

/-!
# Shortest decimal text of a number

A floating-point number is written with the fewest decimal digits that read back as the same
number, and among those with the decimal nearest to it. The decimals that read back are those of
an interval around the number, whose ends belong to it when the mantissa is even.

* `Binary64.shortest`: the digits and the place of the point.
* `Binary64.text`: the written form. Numbers from `10^-4` up to below `10^16` are written out, with
  at least one digit after the point; the others have an exponent of at least two digits.
-/

namespace YamlServer
namespace Binary64

/-- Four times a positive number and the two ends of its interval, over one denominator:
`(low, value, high, denominator)`. Below a power of two the neighbour is only half as far. -/
def interval (m : Nat) (e : Int) : Nat × Nat × Nat × Nat :=
  let scale : Nat := if e < 0 then 1 else twoPow e.natAbs
  let den : Nat := if e < 0 then twoPow e.natAbs else 1
  let below := if m == twoPow 52 && e > minExponent then 1 else 2
  ((4 * m - below) * scale, 4 * m * scale, (4 * m + 2) * scale, 4 * den)

/-- The number of decimal digits before the point of a positive quotient; zero or less when it is
below one: the power of ten just above it. -/
def pointOf (num den : Nat) : Int :=
  if num ≥ den then Int.ofNat (Nat.toDigits 10 (num / den)).length
  else 1 - Int.ofNat (Nat.toDigits 10 ((den - 1) / num)).length

/-- The best decimal of `n` digits for a positive number of that interval, if one reads back. -/
def decimalOf? (low value high den : Nat) (closed : Bool) (point : Int) (n : Nat) : Option Nat :=
  let shift : Int := point - Int.ofNat n
  let up : Nat := if shift < 0 then tenPow shift.natAbs else 1
  let down : Nat := if shift < 0 then 1 else tenPow shift.natAbs
  let unit := den * down
  let floor := value * up / unit
  let inside (d : Nat) : Bool :=
    if closed then low * up ≤ d * unit && d * unit ≤ high * up
    else low * up < d * unit && d * unit < high * up
  let gapBelow := value * up - floor * unit
  let gapAbove := (floor + 1) * unit - value * up
  let nearBelow := gapBelow < gapAbove || (gapBelow == gapAbove && floor % 2 == 0)
  match inside floor, inside (floor + 1) with
  | true, true => some (if nearBelow then floor else floor + 1)
  | true, false => some floor
  | false, true => some (floor + 1)
  | false, false => none

/-- The first of the grids of `n`, `n + 1`, … digits that has a decimal which reads back. -/
def shortestFrom (low value high den : Nat) (closed : Bool) (point : Int) : Nat → Nat → Nat × Int
  | n, 0 => (value * tenPow n / den, point - Int.ofNat n)
  | n, fuel + 1 =>
    match decimalOf? low value high den closed point n with
    | some d => (d, point - Int.ofNat n)
    | none => shortestFrom low value high den closed point (n + 1) fuel

/-- The shortest decimal `d · 10^k` that reads back as the positive number `m · 2^e`. Seventeen
digits always do. -/
def shortest (m : Nat) (e : Int) : Nat × Int :=
  let (low, value, high, den) := interval m e
  shortestFrom low value high den (m % 2 == 0) (pointOf value den) 1 17

/-- Digits and the place of the point, with the zeros at the end dropped. -/
def significant (d : Nat) (k : Int) : List Char × Int :=
  let digits := Nat.toDigits 10 d
  let kept := (digits.reverse.dropWhile (· == '0')).reverse
  (kept, Int.ofNat digits.length + k)

/-- The written form of digits `0.d₁d₂… · 10^point`. -/
def layout (digits : List Char) (point : Int) : List Char :=
  let count : Int := Int.ofNat digits.length
  if point > 16 || point ≤ -4 then
    let exponent := point - 1
    let size := Nat.toDigits 10 exponent.natAbs
    let padded := if size.length < 2 then '0' :: size else size
    let tail := 'e' :: (if exponent < 0 then '-' else '+') :: padded
    match digits with
    | [] => '0' :: tail
    | [d] => d :: tail
    | d :: rest => d :: '.' :: rest ++ tail
  else if point ≤ 0 then
    '0' :: '.' :: List.replicate point.natAbs '0' ++ digits
  else if point ≥ count then
    digits ++ List.replicate (point - count).toNat '0' ++ ['.', '0']
  else
    digits.take point.toNat ++ '.' :: digits.drop point.toNat

def text : Binary64 → String
  | .nan => "nan"
  | .infinite s => if s then "-inf" else "inf"
  | .finite s m e =>
    let sign := if s then ['-'] else []
    if m == 0 then String.ofList (sign ++ ['0', '.', '0'])
    else
      let (d, k) := shortest m e
      let (digits, point) := significant d k
      String.ofList (sign ++ layout digits point)

end Binary64
end YamlServer
