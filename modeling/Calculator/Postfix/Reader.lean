import Calculator.OperandStack
import Calculator.Text.Words

/-!
# Evaluation of postfix text

Words are operators, or else numbers in any notation that `Binary64.ofText?`
reads. A failing operator leaves the stack as it was.
-/

namespace Calculator.Postfix

inductive Operator where
  | binary (op : BinaryOp)
  | unary (sign : Sign)
  deriving DecidableEq

def Operator.ofWord? : String → Option Operator
  | "+" => some (.binary .add)
  | "-" => some (.binary .sub)
  | "*" => some (.binary .mul)
  | "/" => some (.binary .div)
  | "pos" => some (.unary .plus)
  | "neg" => some (.unary .minus)
  | _ => none

/-- Takes one word, the `index`-th of its text. -/
def step (stack : OperandStack) (word : String) (index : Nat) :
    Except EvaluationError OperandStack :=
  match Operator.ofWord? word with
  | some (.binary op) =>
    match stack.values with
    | right :: left :: values => .ok ⟨op.apply left right :: values⟩
    | _ => .error (.stackUnderflow word 2 stack.depth)
  | some (.unary s) =>
    match stack.values with
    | operand :: values => .ok ⟨s.apply operand :: values⟩
    | _ => .error (.stackUnderflow word 1 stack.depth)
  | none =>
    match Binary64.ofText? word with
    | some value => .ok (stack.push value)
    | none => .error (.unknownWord word index)

def runFrom (index : Nat) (stack : OperandStack) : List String → Except EvaluationError OperandStack
  | [] => .ok stack
  | word :: rest => do runFrom (index + 1) (← step stack word index) rest

def evaluate (text : String) : Except EvaluationError Binary64 := do
  (← runFrom 0 .empty (Text.words text)).finish

end Calculator.Postfix
