import Calculator.Binary64.Basic

/-!
# Arithmetic on doubles

Each operation is the exact result on units, rounded once. A NaN operand
gives NaN, and division by zero is not an error.
-/

namespace Calculator.Binary64

/-! ## Sign -/

def neg : Binary64 → Binary64
  | .nan => .nan
  | .infinite s => .infinite (!s)
  | .finite s u h => .finite (!s) u h

def abs : Binary64 → Binary64
  | .nan => .nan
  | .infinite _ => .infinite false
  | .finite _ u h => .finite false u h

/-! ## Operations -/

/-- Two finite numbers that cancel give `+0`, as do `+0` and `-0`. -/
def add : Binary64 → Binary64 → Binary64
  | .nan, _ => .nan
  | _, .nan => .nan
  | .infinite s, .infinite t => if s = t then .infinite s else .nan
  | .infinite s, .finite .. => .infinite s
  | .finite .., .infinite t => .infinite t
  | .finite s u _, .finite t v _ =>
    if s = t then round s (u + v) 1
    else if u < v then round t (v - u) 1
    else if v < u then round s (u - v) 1
    else zero

def sub (a b : Binary64) : Binary64 := a.add b.neg

def mul : Binary64 → Binary64 → Binary64
  | .nan, _ => .nan
  | _, .nan => .nan
  | .infinite s, .infinite t => .infinite (s ^^ t)
  | .infinite s, .finite t v _ => if v = 0 then .nan else .infinite (s ^^ t)
  | .finite s u _, .infinite t => if u = 0 then .nan else .infinite (s ^^ t)
  | .finite s u _, .finite t v _ => round (s ^^ t) (u * v) unitsPerOne

def div : Binary64 → Binary64 → Binary64
  | .nan, _ => .nan
  | _, .nan => .nan
  | .infinite _, .infinite _ => .nan
  | .infinite s, .finite t _ _ => .infinite (s ^^ t)
  | .finite s _ _, .infinite t => round (s ^^ t) 0 1
  | .finite s u _, .finite t v _ =>
    if v = 0 then
      if u = 0 then .nan else .infinite (s ^^ t)
    else round (s ^^ t) (u * unitsPerOne) v

instance : Neg Binary64 := ⟨neg⟩
instance : Add Binary64 := ⟨add⟩
instance : Sub Binary64 := ⟨sub⟩
instance : Mul Binary64 := ⟨mul⟩
instance : Div Binary64 := ⟨div⟩

/-! ## Order -/

def signed (negative : Bool) (units : Nat) : Int := if negative then -units else units

/-- The order of the numbers: `0` and `-0` are equal, and NaN stands in no order
to anything, itself included. -/
def le : Binary64 → Binary64 → Bool
  | .nan, _ => false
  | _, .nan => false
  | .infinite s, .infinite t => s || !t
  | .infinite s, .finite .. => s
  | .finite .., .infinite t => !t
  | .finite s u _, .finite t v _ => signed s u ≤ signed t v

/-- Equality of the numbers: `0` equals `-0`, and NaN differs from itself. -/
def equals (a b : Binary64) : Bool := a.le b && b.le a

def larger (a b : Binary64) : Binary64 := if a.le b then b else a

end Calculator.Binary64
