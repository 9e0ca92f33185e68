/-!
# Sets of characters as flips

A set of characters is kept as the increasing list of code points at which membership changes,
starting from "outside". The tables of a standard then take one number per boundary.

* `CharSet.mem`: membership, by the parity of the boundaries passed.
-/

namespace YamlServer
namespace Text

/-- The code points at which membership changes, in increasing order. -/
structure CharSet where
  flips : List Nat
deriving Repr, DecidableEq

namespace CharSet

/-- Membership of a code point, given whether the boundaries already passed leave it inside. -/
def memFrom (inside : Bool) (n : Nat) : List Nat → Bool
  | [] => inside
  | flip :: rest => if n < flip then inside else memFrom (!inside) n rest

def mem (s : CharSet) (c : Char) : Bool :=
  memFrom false c.toNat s.flips

end CharSet

end Text
end YamlServer
