/-!
# Options of the parser
-/

namespace Calculator.Parse

/-- How a chain of operators of one precedence groups. -/
inductive Grouping where
  /-- `1-2-3` is `1-(2-3)`. -/
  | right
  /-- `1-2-3` is `(1-2)-3`. -/
  | left
  deriving DecidableEq

structure Options where
  grouping : Grouping := .right
  /-- Accept what follows a complete expression. -/
  allowTrailing : Bool := false
  /-- The levels of productions and folded operators that may be open at once. -/
  maxDepth : Nat := 512
  deriving DecidableEq

end Calculator.Parse
