import Calculator.Binary64.Tolerance
import Calculator.Expr.Basic
import Calculator.Parse.Cursor

/-!
# Recursive descent

Grouping to the right, the productions are

    expression := term (("+" | "-") expression)?
    term       := factor (("*" | "/") term)?
    factor     := number | "(" expression ")" | ("+" | "-") factor

and to the left, with the same factors,

    expression := term (("+" | "-") term)*
    term       := factor (("*" | "/") factor)*

Each production is one level, and so is each operator of a chain that groups
to the left. The recursion is on a number of levels that is never below what
the depth limit leaves open, so it is the limit that stops it.
-/

namespace Calculator.Parse

/-! ## Chains of operators -/

/-- Takes at most `bound` operators that `accepts` admits, with their right
operands. Grouping to the right, the operand is a whole chain of the same
level. Grouping to the left it is one operand of the next level, and the level
opened for it stays open until the chain ends. -/
def chainUpTo (options : Options) (accepts : BinaryOp → Bool) (operand sameLevel : Parser Expr) :
    (bound : Nat) → (left : Expr) → Parser Expr
  | 0, left => return left
  | bound + 1, left => do
    match (← current).token.binaryOp? with
    | none => return left
    | some op =>
      if accepts op then
        advance
        match options.grouping with
        | .right =>
          let right ← sameLevel
          chainUpTo options accepts operand sameLevel bound (.binary op left right)
        | .left =>
          nested options do
            let right ← operand
            chainUpTo options accepts operand sameLevel bound (.binary op left right)
      else return left

/-- The whole chain behind `left`. Every operator is pulled before the next, so
the unread lexemes bound their number. -/
def chain (options : Options) (accepts : BinaryOp → Bool) (operand sameLevel : Parser Expr)
    (left : Expr) : Parser Expr := fun c =>
  chainUpTo options accepts operand sameLevel c.unread.length left c

/-! ## Productions -/

def literal (value : Binary64) : Parser Expr := do
  if value.isExactInteger then
    advance
    return .constant value
  else fail (.literalTooLarge (← current).text)

def closeParen : Parser Unit := do
  if (← current).token = .closeParen then advance
  else fail .expectedClosingParen

mutual

def expression (options : Options) : (levels : Nat) → Parser Expr
  | 0 => tooDeep options
  | levels + 1 =>
    nested options do
      let left ← term options levels
      chain options BinaryOp.isAdditive (term options levels) (expression options levels) left

def term (options : Options) : (levels : Nat) → Parser Expr
  | 0 => tooDeep options
  | levels + 1 =>
    nested options do
      let left ← factor options levels
      chain options BinaryOp.isMultiplicative (factor options levels) (term options levels) left

def factor (options : Options) : (levels : Nat) → Parser Expr
  | 0 => tooDeep options
  | levels + 1 =>
    nested options do
      match (← current).token with
      | .number value => literal value
      | .openParen =>
        advance
        let inner ← expression options levels
        closeParen
        return inner
      | .plus =>
        advance
        return .unary .plus (← factor options levels)
      | .minus =>
        advance
        return .unary .minus (← factor options levels)
      | .endOfInput => fail .unexpectedEndOfInput
      | token => fail (.unexpectedToken token.describe)

end

/-! ## Whole sources -/

def document (options : Options) : Parser Expr := do
  advance
  let tree ← expression options options.maxDepth
  let next := (← current).token
  if options.allowTrailing || next = .endOfInput then return tree
  else fail (.unexpectedTrailingTokens next.describe)

def run (source : String) (options : Options) : EStateM.Result Error Cursor Expr :=
  document options (Cursor.ofLexemes (lexemes source))

end Calculator.Parse

namespace Calculator

/-- The tree of a source text, or the first error. -/
def parse (source : String) (options : Parse.Options := {}) : Except Parse.Error Expr :=
  match Parse.run source options with
  | .ok tree _ => .ok tree
  | .error e _ => .error e

/-- The value of a source text under the default options. -/
def evaluate (source : String) : Except Parse.Error Binary64 := (parse source).map Expr.value

end Calculator
