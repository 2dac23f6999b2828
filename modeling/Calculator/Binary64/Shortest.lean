import Calculator.Binary64.Decimal

/-!
# Shortest decimal text of a double

`toText` writes the fewest digits that read back to the same double, the
nearest of those to its value, always in positional notation and without a
point in a whole number.
-/

namespace Calculator

namespace Binary64

/-! ## Choosing the digits -/

/-- A finite double is `5 ^ 1074` grid points of `10 ^ -1074` for each of its units. -/
def gridPoints (units : Nat) : Nat := 5 ^ 1074 * units

/-- Do `digits * 10 ^ (place - 1074)` round to this number of units? It is
irreducible so that no unfolding computes the power of five. -/
@[irreducible] def readsBack (units digits place : Nat) : Bool :=
  roundUnits (digits * 10 ^ place) (5 ^ 1074) = units

/-- The neighbour of the value among the multiples of `10 ^ (place - 1074)` that
reads back, the nearer one if both do and the upper one on a tie. -/
def nearestAt? (units place : Nat) : Option Nat :=
  let below := gridPoints units / 10 ^ place
  let lowerIsNearer := 2 * gridPoints units < (2 * below + 1) * 10 ^ place
  match readsBack units below place, readsBack units (below + 1) place with
  | true, true => some (if lowerIsNearer then below else below + 1)
  | true, false => some below
  | false, true => some (below + 1)
  | false, false => none

/-- The first hit at the given number of digits or up to `more` digits further;
all digits of the value if there is none. -/
def shortestFrom (units length : Nat) : (digits more : Nat) → Decimal
  | _, 0 => ⟨gridPoints units, -1074⟩
  | digits, more + 1 =>
    match nearestAt? units (length - digits) with
    | some found => ⟨found, ((length - digits : Nat) : Int) - 1074⟩
    | none => shortestFrom units length (digits + 1) more

/-- Seventeen digits always read back. -/
def shortest (units : Nat) : Decimal :=
  shortestFrom units (Nat.toDigits 10 (gridPoints units)).length 1 17

end Binary64

/-! ## Writing the digits -/

namespace Decimal

/-- Drops the last `n` digits as long as they are zeros. -/
def dropZeros : Nat → Decimal → Decimal
  | 0, d => d
  | n + 1, d => if d.digits % 10 = 0 then dropZeros n ⟨d.digits / 10, d.exponent + 1⟩ else d

/-- Positional notation, with a zero before a leading point. -/
def toChars (d : Decimal) : List Char :=
  let run := Nat.toDigits 10 d.digits
  match d.exponent with
  | .ofNat zeros => run ++ List.replicate zeros '0'
  | .negSucc n =>
    let padded := List.replicate (n + 2 - run.length) '0' ++ run
    let whole := padded.length - (n + 1)
    padded.take whole ++ '.' :: padded.drop whole

end Decimal

namespace Binary64

/-- Whole numbers below `2 ^ 53` are written by their own digits. -/
def unitsToChars (units : Nat) : List Char :=
  if units % unitsPerOne = 0 && units / unitsPerOne < 2 ^ 53 then
    Nat.toDigits 10 (units / unitsPerOne)
  else
    let d := shortest units
    (d.dropZeros (Nat.toDigits 10 d.digits).length).toChars

def toChars : Binary64 → List Char
  | .nan => "NaN".toList
  | .infinite negative => (if negative then ['-'] else []) ++ "inf".toList
  | .finite negative units _ => (if negative then ['-'] else []) ++ unitsToChars units

def toText (a : Binary64) : String := String.ofList a.toChars

instance : ToString Binary64 := ⟨toText⟩

end Binary64

end Calculator
