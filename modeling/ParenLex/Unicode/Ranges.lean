/-!
# Sets of characters as ranges

A property of characters is a list of closed ranges of code points.
-/

namespace ParenLex.Unicode

/-- Closed ranges of code points, in ascending order. -/
abbrev Ranges := List (Nat × Nat)

/-- Whether the code point of `c` lies in one of the ranges. -/
def Ranges.contains (rs : Ranges) (c : Char) : Bool :=
  rs.any fun r => r.1 ≤ c.toNat && c.toNat ≤ r.2

end ParenLex.Unicode
