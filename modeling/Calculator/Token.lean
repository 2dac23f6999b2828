import Calculator.Operator
import Calculator.Binary64.Shortest

/-!
# Tokens
-/

namespace Calculator

inductive Token where
  | plus | minus | star | slash
  | openParen | closeParen
  | number (value : Binary64)
  | endOfInput
  /-- A character outside the alphabet of expressions. -/
  | illegal (character : Char)
  deriving DecidableEq

namespace Token

/-- The token as messages name it. -/
def describe : Token → String
  | plus => "'+'"
  | minus => "'-'"
  | star => "'*'"
  | slash => "'/'"
  | openParen => "'('"
  | closeParen => "')'"
  | number value => "number " ++ value.toText
  | endOfInput => "end of input"
  | illegal _ => "illegal character"

def binaryOp? : Token → Option BinaryOp
  | plus => some .add
  | minus => some .sub
  | star => some .mul
  | slash => some .div
  | _ => none

end Token

end Calculator
