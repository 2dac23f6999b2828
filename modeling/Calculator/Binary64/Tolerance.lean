import Calculator.Binary64.Arithmetic

/-!
# Exact literals and agreement of results

`isExactInteger` tells whether a double is a whole number that digits are known
to have written exactly, `approxEq` whether two results agree up to rounding.
-/

namespace Calculator.Binary64

/-- Every whole number up to this one is a double, and no other whole number
rounds to it. -/
def maxExactInteger : Nat := 2 ^ 53 - 1

/-- Whole, not negative and at most `maxExactInteger`; both zeros are. -/
def isExactInteger : Binary64 → Bool
  | .finite s u _ =>
    (!s || u = 0) && u ≤ maxExactInteger * unitsPerOne && u % unitsPerOne = 0
  | _ => false

/-- The relative tolerance, `2 ^ -48`. -/
def tolerance : Binary64 := round false (2 ^ 1026) 1

/-- NaN agrees with NaN only and an infinity with itself only. The difference
of two finite numbers and the tolerance it is held against are rounded. -/
def approxEq : Binary64 → Binary64 → Bool
  | .nan, b => b = .nan
  | _, .nan => false
  | .infinite s, b => b = .infinite s
  | .finite .., .infinite _ => false
  | a@(.finite ..), b@(.finite ..) =>
    (a - b).abs.le (tolerance * (a.abs.larger b.abs).larger one)

end Calculator.Binary64
