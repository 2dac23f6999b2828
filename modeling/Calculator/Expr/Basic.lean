import Calculator.Operator
import Calculator.Binary64.Shortest

/-!
# Expressions

Trees of constants, binary operators and signs, with their value, their size
and their text. The text brackets every binary node, so that it shows the
grouping.
-/

namespace Calculator

inductive Expr where
  | constant (value : Binary64)
  | binary (op : BinaryOp) (left right : Expr)
  | unary (sign : Sign) (operand : Expr)
  deriving DecidableEq

namespace Expr

def value : Expr → Binary64
  | constant v => v
  | binary op l r => op.apply l.value r.value
  | unary s e => s.apply e.value

/-- Fully bracketed infix text; a sign stands directly before its operand. -/
def infixText : Expr → String
  | constant v => v.toText
  | binary op l r => "(" ++ l.infixText ++ " " ++ op.symbol ++ " " ++ r.infixText ++ ")"
  | unary s e => s.symbol ++ e.infixText

/-- Same shape and operators, and constants equal as numbers. -/
def equals : Expr → Expr → Bool
  | constant a, constant b => a.equals b
  | binary op l r, binary op' l' r' => op = op' && l.equals l' && r.equals r'
  | unary s e, unary s' e' => s = s' && e.equals e'
  | _, _ => false

end Expr

end Calculator
