import Calculator.Report

/-!
# Runs on an operand stack

Visiting an expression pushes its value and touches nothing below, so a run over
any number of expressions cannot fail, and the stack holds their values. A
report fails just when its source does not parse.
-/

namespace Calculator

namespace OperandStack

@[simp] theorem pop_push (stack : OperandStack) (value : Binary64) (operator : String) (needed : Nat) :
    (stack.push value).pop operator needed = .ok (value, stack) := rfl

theorem visit_eq (e : Expr) (stack : OperandStack) : visit e stack = .ok (stack.push e.value) := by
  induction e generalizing stack with
  | constant v => rfl
  | binary op l r ihl ihr =>
    -- the value of `r` lies on that of `l`, so the operands come off in their order
    have hr := ihr (stack.push l.value)
    simp [visit, ihl stack, hr, bind, Except.bind, pure, Except.pure, Expr.value]
  | unary s e ih => simp [visit, ih stack, bind, Except.bind, pure, Except.pure, Expr.value]

/-- Visits one expression after the other, up to the first error. -/
def visitAll : List Expr → OperandStack → Except EvaluationError OperandStack
  | [], stack => .ok stack
  | e :: es, stack => do visitAll es (← visit e stack)

theorem visitAll_eq (es : List Expr) (stack : OperandStack) :
    visitAll es stack = .ok ⟨(es.map Expr.value).reverse ++ stack.values⟩ := by
  induction es generalizing stack with
  | nil => rfl
  | cons e es ih =>
    have hstep : visitAll (e :: es) stack = visitAll es (stack.push e.value) := by
      simp [visitAll, visit_eq, bind, Except.bind]
    rw [hstep, ih]
    simp [push]

theorem finish_of_depth_ne_one {stack : OperandStack} (h : stack.depth ≠ 1) :
    stack.finish = .error (.stackImbalance stack.depth) := by
  unfold finish
  split
  · next value hvalues => simp [depth, hvalues] at h
  · rfl

end OperandStack

theorem Expr.stackValue_eq (e : Expr) : e.stackValue = .ok e.value := by
  simp [stackValue, OperandStack.visit_eq, bind, Except.bind, OperandStack.push, OperandStack.empty,
    OperandStack.finish]

theorem Report.ofExpr_eq (e : Expr) : Report.ofExpr e = .ok ⟨e.value, e.postfixText, e.value⟩ := by
  simp [ofExpr, e.stackValue_eq, bind, Except.bind, pure, Except.pure]

open OperandStack in
/-- A stack after any run of visits. A visit of a constant or of an operator
with its operands is that of the expression they make. -/
theorem visitAll_pushes_values :
    (∀ es stack, visitAll es stack = .ok ⟨(es.map Expr.value).reverse ++ stack.values⟩) ∧
    (∀ es, ∃ stack, visitAll es .empty = .ok stack ∧ stack.depth = es.length ∧
      stack.finish = match es with
        | [e] => .ok e.value
        | _ => .error (.stackImbalance es.length)) ∧
    ∀ source o, Report.ofSource source o = match parse source o with
      | .ok t => .ok ⟨t.value, t.postfixText, t.value⟩
      | .error e => .error (.parse e) := by
  refine ⟨visitAll_eq, fun es => ?_, fun source o => ?_⟩
  · have hdepth : (OperandStack.mk ((es.map Expr.value).reverse ++ empty.values)).depth = es.length := by
      simp [depth, empty]
    refine ⟨_, visitAll_eq es .empty, hdepth, ?_⟩
    match es with
    | [] => rfl
    | [e] => rfl
    | e :: f :: es => rw [finish_of_depth_ne_one (by rw [hdepth]; simp), hdepth]
  · unfold Report.ofSource
    cases parse source o with
    | ok t =>
      simp only [Report.ofExpr_eq]
      rfl
    | error e => rfl

end Calculator
