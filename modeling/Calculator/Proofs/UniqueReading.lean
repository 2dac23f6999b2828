import Calculator.Proofs.PostfixReplay

/-!
# Unique reading of postfix text

Words that are read onto a stack of trees leave there the tree that they list,
above what was there before. So words list one tree at most, and different
expressions have different texts.
-/

namespace Calculator.Postfix

/-! ## A stack of trees -/

/-- Takes one word onto a stack of trees, the top first. -/
def graft (trees : List Expr) (word : String) : Option (List Expr) :=
  match Operator.ofWord? word with
  | some (.binary op) =>
    match trees with
    | r :: l :: trees => some (.binary op l r :: trees)
    | _ => none
  | some (.unary s) =>
    match trees with
    | e :: trees => some (.unary s e :: trees)
    | [] => none
  | none => (Binary64.ofText? word).map fun v => .constant v :: trees

section
variable {word : String} {ws : List String} {t u : Expr} {v : Binary64} (trees : List Expr)

theorem graft_constant (hword : ∀ op : Operator, word ≠ op.word) (hv : Binary64.ofText? word = some v) :
    graft trees word = some (.constant v :: trees) := by
  rw [graft, ofWord?_eq_none_iff.mpr hword]
  dsimp only
  rw [hv]
  rfl

theorem graft_symbol (op : BinaryOp) (l r : Expr) :
    graft (r :: l :: trees) op.symbol = some (.binary op l r :: trees) := by
  cases op <;> rfl

theorem graft_sign (s : Sign) (e : Expr) : graft (e :: trees) s.word = some (.unary s e :: trees) := by
  cases s <;> rfl

/-! ## Reading a listing -/

theorem Lists.foldlM_graft (h : Lists ws t) : ws.foldlM graft trees = some (t :: trees) := by
  induction h generalizing trees with
  | constant hword hv => simp [graft_constant trees hword hv]
  | @binary ws us op l r _ _ ihl ihr =>
    -- where the words of `l` end need not be known: they leave one tree, whatever lies below
    simp [List.foldlM_append, ihl trees, ihr (l :: trees), graft_symbol]
  | unary _ ih => simp [List.foldlM_append, ih trees, graft_sign]

theorem Lists.unique (ht : Lists ws t) (hu : Lists ws u) : t = u := by
  have h := (ht.foldlM_graft []).symm.trans (hu.foldlM_graft [])
  simpa using h

end

/-- The text of an expression tells its shape, its operators and its constants, the sign of a zero
included. -/
theorem postfixText_injective : Function.Injective Expr.postfixText := by
  intro t u h
  have hwords : t.postfixWords = u.postfixWords := by
    rw [← t.words_postfixText, ← u.words_postfixText, h]
  have hu := lists_postfixWords u
  rw [← hwords] at hu
  exact (lists_postfixWords t).unique hu

end Calculator.Postfix
