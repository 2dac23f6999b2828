import Calculator.OperandStack
import Calculator.Parse.Grammar
import Calculator.Postfix.Printer

/-!
# Report on an expression

The value by recursion, the postfix text and the value by way of a stack.
-/

namespace Calculator

structure Report where
  tree : Binary64
  postfixText : String
  stack : Binary64
  deriving DecidableEq

namespace Report

inductive Failure where
  | parse (error : Parse.Error)
  | evaluation (error : EvaluationError)
  deriving DecidableEq

def Failure.message : Failure → String
  | parse error => error.message
  | evaluation error => error.message

/-- Three lines without a final newline. -/
def text (report : Report) : String :=
  report.tree.toText ++ "\n" ++ report.postfixText ++ "\n" ++ report.stack.toText

def ofExpr (e : Expr) : Except EvaluationError Report := do
  return ⟨e.value, e.postfixText, ← e.stackValue⟩

def ofSource (source : String) (options : Parse.Options := {}) : Except Failure Report :=
  match parse source options with
  | .error e => .error (.parse e)
  | .ok tree => (ofExpr tree).mapError .evaluation

end Report

end Calculator
