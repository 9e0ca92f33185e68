/-!
# Binary floating-point numbers

The 64-bit floating-point numbers as exact dyadic rationals. Every operation computes the exact
rational result and rounds it once, to the nearest number with an even mantissa on a tie, so that
the laws of rounding can be stated and no machine arithmetic is involved.

* `Binary64.ofRatio`: the number nearest to a quotient.
* `Binary64.add`, `Binary64.mul`, `Binary64.neg`: arithmetic.
* `Binary64.comparePlaces`: order by size, of numbers that have a place on the line.
-/

namespace YamlServer

/-- `finite s m e` is `± m · 2^e`, negative when `s` holds. The numbers built here have
`m < 2^53`, `-1074 ≤ e ≤ 971`, and `2^52 ≤ m` unless `e = -1074`. -/
inductive Binary64 where
  | finite (negative : Bool) (mantissa : Nat) (exponent : Int)
  | infinite (negative : Bool)
  | nan
deriving Repr, DecidableEq, Inhabited

namespace Binary64

def minExponent : Int := -1074

def maxExponent : Int := 971

def twoPow (n : Nat) : Nat :=
  Nat.pow 2 n

def tenPow (n : Nat) : Nat :=
  Nat.pow 10 n

def zero (negative : Bool) : Binary64 :=
  .finite negative 0 minExponent

/-- `n / d` rounded to the nearest natural number, a half to the even one. -/
def roundDiv (n d : Nat) : Nat :=
  let q := n / d
  let r := n % d
  if 2 * r > d || (2 * r == d && q % 2 == 1) then q + 1 else q

/-- `n / (d · 2^e)` as a quotient of natural numbers. -/
def scaled (n d : Nat) (e : Int) : Nat × Nat :=
  if e < 0 then (n * twoPow e.natAbs, d) else (n, d * twoPow e.natAbs)

/-- The exponent at which the quotient of two positive numbers has a mantissa of 53 bits. -/
def exponentOf (num den : Nat) : Int :=
  let guess : Int := Int.ofNat (Nat.log2 num) - Int.ofNat (Nat.log2 den) - 52
  let (n, d) := scaled num den guess
  let exact := if n < d * twoPow 52 then guess - 1 else guess
  max exact minExponent

/-- The number nearest to `± num / den`, an infinity when the quotient is too large. -/
def ofRatio (negative : Bool) (num den : Nat) : Binary64 :=
  if num == 0 then zero negative
  else
    let e := exponentOf num den
    let (n, d) := scaled num den e
    let m := roundDiv n d
    let (m, e) := if m == twoPow 53 then (twoPow 52, e + 1) else (m, e)
    if e > maxExponent then .infinite negative else .finite negative m e

def ofInt (i : Int) : Binary64 :=
  ofRatio (i < 0) i.natAbs 1

/-- The number nearest to `± digits · 10^exponent`. Magnitudes far outside the range are decided
from the position of the first digit alone. -/
def ofDecimal (negative : Bool) (digits : Nat) (exponent : Int) : Binary64 :=
  if digits == 0 then zero negative
  else
    let magnitude : Int := Int.ofNat (Nat.toDigits 10 digits).length + exponent
    if magnitude > 400 then .infinite negative
    else if magnitude < -400 then zero negative
    else if exponent < 0 then ofRatio negative digits (tenPow exponent.natAbs)
    else ofRatio negative (digits * tenPow exponent.natAbs) 1

/-- The quotient that a finite number is: a signed numerator and a positive denominator. -/
def toRatio? : Binary64 → Option (Int × Nat)
  | .finite s m e =>
    let num : Nat := if e < 0 then m else m * twoPow e.natAbs
    let den : Nat := if e < 0 then twoPow e.natAbs else 1
    some (if s then -Int.ofNat num else Int.ofNat num, den)
  | _ => none

def isNegative : Binary64 → Bool
  | .finite s _ _ => s
  | .infinite s => s
  | .nan => false

def isZero : Binary64 → Bool
  | .finite _ m _ => m == 0
  | _ => false

def neg : Binary64 → Binary64
  | .finite s m e => .finite (!s) m e
  | .infinite s => .infinite (!s)
  | .nan => .nan

/-- The sum. Opposite numbers add up to positive zero. -/
def add (x y : Binary64) : Binary64 :=
  match x.toRatio?, y.toRatio? with
  | some (a, b), some (c, d) =>
    let num := a * Int.ofNat d + c * Int.ofNat b
    if num == 0 then zero (x.isNegative && y.isNegative)
    else ofRatio (num < 0) num.natAbs (b * d)
  | some _, none => y
  | none, some _ => x
  | none, none => if x == y then x else .nan

def mul (x y : Binary64) : Binary64 :=
  let s := x.isNegative != y.isNegative
  match x.toRatio?, y.toRatio? with
  | some (a, b), some (c, d) => ofRatio s (a.natAbs * c.natAbs) (b * d)
  | _, _ =>
    if x == .nan || y == .nan || x.isZero || y.isZero then .nan else .infinite s

/-- A finite number or an infinity, as a point of the extended line: an infinity is the sign over
zero. Not-a-numbers have no place. -/
def place? : Binary64 → Option (Int × Nat)
  | .nan => none
  | .infinite s => some (if s then -1 else 1, 0)
  | x => x.toRatio?

def comparePlaces : Int × Nat → Int × Nat → Ordering
  | (a, 0), (b, 0) => compare a b
  | (a, 0), _ => if a < 0 then .lt else .gt
  | _, (b, 0) => if b < 0 then .gt else .lt
  | (a, b), (c, d) => compare (a * Int.ofNat d) (c * Int.ofNat b)

def toInt? (x : Binary64) : Option Int :=
  match x.toRatio? with
  | some (n, d) => if n % Int.ofNat d == 0 then some (n / Int.ofNat d) else none
  | none => none

end Binary64
end YamlServer
