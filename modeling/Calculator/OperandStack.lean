import Calculator.Expr.Basic

/-!
# Evaluation on a stack of operands

`OperandStack.visit` walks an expression in post-order, pushes its constants
and replaces the operands of each operator by the result.
-/

namespace Calculator

inductive EvaluationError where
  /-- The stack did not end with exactly one value. -/
  | stackImbalance (depth : Nat)
  /-- An operator found fewer operands than it needs. -/
  | stackUnderflow (operator : String) (needed available : Nat)
  /-- A postfix word that is neither an operator nor a number. -/
  | unknownWord (word : String) (index : Nat)
  deriving DecidableEq

def EvaluationError.message : EvaluationError → String
  | stackImbalance depth =>
    "Evaluation finished with " ++ toString depth ++ " values on the stack, expected exactly one."
  | stackUnderflow operator needed available =>
    "Operator '" ++ operator ++ "' needs " ++ toString needed
      ++ " operand(s) but the stack holds " ++ toString available ++ "."
  | unknownWord word index =>
    "Unknown postfix token '" ++ word ++ "' at index " ++ toString index ++ "."

/-- Values waiting for their operator, the top first. -/
structure OperandStack where
  values : List Binary64

namespace OperandStack

def empty : OperandStack := ⟨[]⟩

def depth (stack : OperandStack) : Nat := stack.values.length

def push (stack : OperandStack) (value : Binary64) : OperandStack := ⟨value :: stack.values⟩

def pop (stack : OperandStack) (operator : String) (needed : Nat) :
    Except EvaluationError (Binary64 × OperandStack) :=
  match stack.values with
  | [] => .error (.stackUnderflow operator needed stack.depth)
  | value :: values => .ok (value, ⟨values⟩)

/-- The right operand of a binary operator is on top, since it comes last. -/
def visit : Expr → OperandStack → Except EvaluationError OperandStack
  | .constant value, stack => .ok (stack.push value)
  | .binary op l r, stack => do
    let stack ← visit l stack
    let stack ← visit r stack
    let (right, stack) ← stack.pop op.symbol 2
    let (left, stack) ← stack.pop op.symbol 2
    return stack.push (op.apply left right)
  | .unary s e, stack => do
    let stack ← visit e stack
    let (operand, stack) ← stack.pop s.word 1
    return stack.push (s.apply operand)

/-- The only value left. -/
def finish (stack : OperandStack) : Except EvaluationError Binary64 :=
  match stack.values with
  | [value] => .ok value
  | _ => .error (.stackImbalance stack.depth)

end OperandStack

/-- The value of an expression by way of a fresh stack. -/
def Expr.stackValue (e : Expr) : Except EvaluationError Binary64 := do
  (← OperandStack.visit e .empty).finish

end Calculator
