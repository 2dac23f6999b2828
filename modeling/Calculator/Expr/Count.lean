import Calculator.Expr.Basic

/-!
# Size of an expression

Leaves, operator nodes and the nodes on the longest path from the root.
-/

namespace Calculator

structure NodeCount where
  leaves : Nat
  operators : Nat
  depth : Nat
  deriving DecidableEq

namespace Expr

def count : Expr → NodeCount
  | constant _ => ⟨1, 0, 1⟩
  | binary _ l r =>
    let a := l.count
    let b := r.count
    ⟨a.leaves + b.leaves, 1 + a.operators + b.operators, 1 + max a.depth b.depth⟩
  | unary _ e =>
    let a := e.count
    ⟨a.leaves, 1 + a.operators, 1 + a.depth⟩

theorem depth_pos (t : Expr) : 0 < t.count.depth := by
  cases t with
  | constant v => exact Nat.one_pos
  | binary op l r => simp only [count]; omega
  | unary s e => simp only [count]; omega

end Expr

end Calculator
