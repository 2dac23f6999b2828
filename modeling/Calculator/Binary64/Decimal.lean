import Calculator.Binary64.Basic

/-!
# Doubles from decimal text

`ofText?` reads an optional sign and then `inf`, `infinity`, `nan` or a decimal
number with an optional exponent, and nothing else. The value is the nearest
double, whatever the number of digits.
-/

namespace Calculator

/-- The number `digits * 10 ^ exponent`. -/
structure Decimal where
  digits : Nat
  exponent : Int
  deriving DecidableEq

namespace Decimal

/-- The nearest double. Beyond the first two bounds the answer is infinite or
zero whatever the digits, and no power of ten has to be formed. -/
def toBinary64 (negative : Bool) (d : Decimal) : Binary64 :=
  let size := d.exponent.natAbs
  if d.digits = 0 then Binary64.round negative 0 1
  else if 0 ≤ d.exponent then
    if 400 < size then .infinite negative
    else Binary64.round negative (d.digits * 10 ^ size * Binary64.unitsPerOne) 1
  else
    if d.digits.log2 + 400 < size then Binary64.round negative 0 1
    else Binary64.round negative (d.digits * Binary64.unitsPerOne) (10 ^ size)

/-! ## Reading -/

/-- The whole number that a run of digits writes. -/
def runValue (run : List Char) : Nat := Nat.ofDigitChars 10 run 0

/-- What may follow the digits: nothing, or `e` and a whole number. -/
def exponent? : List Char → Option Int
  | [] => some 0
  | c :: rest =>
    if c = 'e' || c = 'E' then
      let (negative, run) := match rest with
        | '+' :: run => (false, run)
        | '-' :: run => (true, run)
        | run => (false, run)
      if run.isEmpty || !run.all Char.isDigit then none
      else some (if negative then -(runValue run) else runValue run)
    else none

/-- Digits with at most one point among them, at least one digit, and then an
optional exponent. -/
def ofChars? (text : List Char) : Option Decimal :=
  let whole := text.takeWhile Char.isDigit
  let (fraction, rest) := match text.dropWhile Char.isDigit with
    | '.' :: more => (more.takeWhile Char.isDigit, more.dropWhile Char.isDigit)
    | rest => ([], rest)
  if whole.isEmpty && fraction.isEmpty then none
  else (exponent? rest).map fun e => ⟨runValue (whole ++ fraction), e - fraction.length⟩

end Decimal

namespace Binary64

def ofUnsignedChars? (negative : Bool) (text : List Char) : Option Binary64 :=
  let word := text.map Char.toLower
  if word = "nan".toList then some .nan
  else if word = "inf".toList || word = "infinity".toList then some (.infinite negative)
  else (Decimal.ofChars? text).map (Decimal.toBinary64 negative)

def ofChars? : List Char → Option Binary64
  | '+' :: text => ofUnsignedChars? false text
  | '-' :: text => ofUnsignedChars? true text
  | text => ofUnsignedChars? false text

def ofText? (text : String) : Option Binary64 := ofChars? text.toList

end Binary64

end Calculator
