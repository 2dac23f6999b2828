import Calculator.Binary64.Arithmetic

/-!
# Operators

The four binary operators and the two signs. A sign is written differently in
infix and in postfix text, where `-` alone is the subtraction.
-/

namespace Calculator

inductive BinaryOp where
  | add | sub | mul | div
  deriving DecidableEq

inductive Sign where
  | plus | minus
  deriving DecidableEq

namespace BinaryOp

/-- The symbol in infix and in postfix text. -/
def symbol : BinaryOp → String
  | add => "+"
  | sub => "-"
  | mul => "*"
  | div => "/"

def apply : BinaryOp → Binary64 → Binary64 → Binary64
  | add, a, b => a + b
  | sub, a, b => a - b
  | mul, a, b => a * b
  | div, a, b => a / b

def isAdditive : BinaryOp → Bool
  | add | sub => true
  | mul | div => false

def isMultiplicative : BinaryOp → Bool
  | add | sub => false
  | mul | div => true

end BinaryOp

namespace Sign

/-- The symbol in infix text. -/
def symbol : Sign → String
  | plus => "+"
  | minus => "-"

/-- The word in postfix text. -/
def word : Sign → String
  | plus => "pos"
  | minus => "neg"

def apply : Sign → Binary64 → Binary64
  | plus, a => a
  | minus, a => -a

end Sign

end Calculator
