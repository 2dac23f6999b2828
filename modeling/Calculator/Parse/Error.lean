/-!
# Parse errors

A cause and the byte where it was found. Causes carry tokens as messages
name them.
-/

namespace Calculator.Parse

inductive Cause where
  | illegalCharacter (character : Char)
  /-- A token that cannot start an operand. -/
  | unexpectedToken (token : String)
  /-- The input stops where an operand belongs. -/
  | unexpectedEndOfInput
  | expectedClosingParen
  | unexpectedTrailingTokens (token : String)
  | nestingTooDeep (limit : Nat)
  /-- A literal that a double does not hold exactly, as written. -/
  | literalTooLarge (literal : String)
  deriving DecidableEq

structure Error where
  position : Nat
  cause : Cause
  deriving DecidableEq

def Cause.message : Cause → String
  | illegalCharacter c => "Illegal character '" ++ String.singleton c ++ "'."
  | unexpectedToken token => "Unexpected token: " ++ token ++ "."
  | unexpectedEndOfInput => "Unexpected end of input."
  | expectedClosingParen => "Expected closing parenthesis ')' but none found."
  | unexpectedTrailingTokens token => "Extra tokens after expression: " ++ token ++ "."
  | nestingTooDeep limit => "Expression nests deeper than " ++ toString limit ++ " levels."
  | literalTooLarge literal => "Literal " ++ literal ++ " is too large."

/-- Is the fault in a character, and not in the order of the tokens? -/
def Cause.isLexical : Cause → Bool
  | illegalCharacter _ => true
  | _ => false

def Error.message (error : Error) : String :=
  "Error at position " ++ toString error.position ++ ": " ++ error.cause.message

end Calculator.Parse
