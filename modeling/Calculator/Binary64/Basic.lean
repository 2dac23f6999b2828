import Calculator.Binary64.Rounding

/-!
# Doubles

A finite double is a sign and a whole number of units of `2 ^ -1074`, the
distance between the smallest doubles. Every NaN is the same value, so `=`
says "the same double, the sign of zero included, or both NaN".
-/

namespace Calculator

namespace Binary64

/-- The units in 1. -/
def unitsPerOne : Nat := 2 ^ 1074

/-- The units in `2 ^ 1024`, where the finite doubles end. -/
def unitLimit : Nat := 2 ^ 2098

/-- Unit counts of finite doubles: 53 binary digits, below the limit. -/
def Representable (units : Nat) : Prop := units < unitLimit ∧ ulp units ∣ units

instance (units : Nat) : Decidable (Representable units) :=
  inferInstanceAs (Decidable (_ ∧ _))

end Binary64

inductive Binary64 where
  | nan
  | infinite (negative : Bool)
  | finite (negative : Bool) (units : Nat) (representable : Binary64.Representable units)
  deriving DecidableEq

namespace Binary64

/-- The double nearest to `num / den` units with the given sign, ties to even. -/
def round (negative : Bool) (num den : Nat) : Binary64 :=
  let units := roundUnits num den
  if h : units < unitLimit then .finite negative units ⟨h, ulp_dvd_roundUnits num den⟩
  else .infinite negative

theorem round_one (negative : Bool) {units : Nat} (h : Representable units) :
    round negative units 1 = .finite negative units h := by
  simp [round, roundUnits_one h.2, h.1]

def ofNat (n : Nat) : Binary64 := round false (n * unitsPerOne) 1

def zero : Binary64 := ofNat 0

def one : Binary64 := ofNat 1

end Binary64

end Calculator
