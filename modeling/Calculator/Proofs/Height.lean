import Calculator.Expr.Count
import Calculator.Proofs.Phrase
import Calculator.Proofs.Verdict

/-!
# The height of trees that group to the left

A chain that groups to the left opens a level for each of its operators. The
tree grows above the operands read before, whose own levels are closed by then,
so the limit does not bound its height. `Level.tallest` does.
-/

namespace Calculator.Parse

/-! ## The tallest phrases -/

/-- The height of the tallest factor of so many levels. It starts with a sign,
or it is a group: the tallest first operand, below as many multiplicative
operators and then additive ones as the levels admit. -/
def tallestFactor : Nat → Nat
  | 0 => 0
  | 1 => 1
  | 2 => 2
  | 3 => 3
  | n + 4 => max (tallestFactor (n + 3) + 1) (tallestFactor (n + 1) + 2 * n)

def Level.tallest : Level → Nat → Nat
  | expression, n => tallestFactor (n - 2) + (n - 3) + (n - 3)
  | term, n => tallestFactor (n - 1) + (n - 2)
  | factor, n => tallestFactor n

theorem tallestFactor_lt_succ (n : Nat) : tallestFactor n < tallestFactor (n + 1) := by
  match n with
  | 0 => decide
  | 1 => decide
  | 2 => decide
  | n + 3 => exact Nat.le_max_left _ _

theorem tallestFactor_mono {n m : Nat} (h : n ≤ m) : tallestFactor n ≤ tallestFactor m := by
  induction h with
  | refl => exact Nat.le_refl _
  | step _ ih => exact Nat.le_trans ih (Nat.le_of_lt (tallestFactor_lt_succ _))

theorem le_tallestFactor (n : Nat) : n ≤ tallestFactor n := by
  induction n with
  | zero => exact Nat.zero_le _
  | succ n ih =>
    have := tallestFactor_lt_succ n
    omega

theorem tallest_expression_le (n : Nat) : Level.expression.tallest n ≤ tallestFactor (n + 1) := by
  match n with
  | 0 => decide
  | 1 => decide
  | 2 => decide
  | n + 3 =>
    have h : tallestFactor (n + 1) + 2 * n ≤ tallestFactor (n + 4) := Nat.le_max_right _ _
    show tallestFactor (n + 1) + n + n ≤ tallestFactor (n + 4)
    omega

namespace Level
variable {l : Level} {n m : Nat}

theorem tallest_mono (l : Level) (h : n ≤ m) : l.tallest n ≤ l.tallest m := by
  have h₀ := tallestFactor_mono h
  have h₁ := tallestFactor_mono (Nat.sub_le_sub_right h 1)
  have h₂ := tallestFactor_mono (Nat.sub_le_sub_right h 2)
  cases l <;> simp only [tallest] <;> omega

/-- A chain is as tall as its tallest operand and the operators that fit behind it. -/
theorem tallest_tighter (hl : l ≠ factor) (n : Nat) :
    l.tighter.tallest n + (n - l.tighter.height) = l.tallest (n + 1) := by
  cases l with
  | expression => simp only [tighter, tallest, height, Nat.reduceSubDiff]
  | term => simp only [tighter, tallest, height, Nat.add_sub_cancel, Nat.reduceSubDiff]
  | factor => exact absurd rfl hl

theorem height_le_of_tallest_pos (h : 0 < l.tallest n) : l.height ≤ n := by
  have hzero : tallestFactor 0 = 0 := rfl
  refine Nat.le_of_not_lt fun hlt => ?_
  cases l with
  | expression =>
    have hn : n - 2 = 0 ∧ n - 3 = 0 := by simp only [height] at hlt; omega
    simp only [tallest, hn.1, hn.2, hzero] at h
    omega
  | term =>
    have hn : n - 1 = 0 ∧ n - 2 = 0 := by simp only [height] at hlt; omega
    simp only [tallest, hn.1, hn.2, hzero] at h
    omega
  | factor =>
    have hn : n = 0 := by simp only [height] at hlt; omega
    simp only [tallest, hn, hzero] at h
    omega

end Level

/-! ## No tree is taller -/

/-- How tall the tree of a run is that has so many levels left. The first
operands of a chain may be of any height `h` that its other operands keep to. -/
def Goal.Bounds (levels : Nat) (t : Expr) : Goal → Prop
  | production l => t.count.depth ≤ l.tallest levels
  | chain l left => ∀ h, left.count.depth ≤ h → l.tighter.tallest levels ≤ h →
      t.count.depth ≤ h + (levels - l.tighter.height)

theorem Parses.bounds {o : Options} {goal : Goal} {c d : Cursor} {t : Expr} (hg : o.grouping = .left)
    (h : Parses o goal c t d) (hc : Ready c.ahead) : goal.Bounds (o.maxDepth - c.depth) t := by
  induction h with
  | @operand l c d e a t hl hm ha _ iha iht =>
    have hd := ha.stands (c := c.enter) hc
    have hlevels : o.maxDepth - d.depth = o.maxDepth - c.enter.depth := by rw [hd.depth]
    have hoperand : a.count.depth ≤ l.tighter.tallest (o.maxDepth - c.enter.depth) := iha hc
    have hothers := Nat.le_of_eq (congrArg l.tighter.tallest hlevels)
    have hchain := iht hd.ready _ hoperand hothers
    have hsucc : o.maxDepth - c.depth = o.maxDepth - c.enter.depth + 1 := by
      rw [Cursor.depth_enter]
      omega
    show t.count.depth ≤ l.tallest (o.maxDepth - c.depth)
    rw [hlevels] at hchain
    rw [hsucc, ← Level.tallest_tighter hl]
    exact hchain
  | stop _ => exact fun h ha _ => Nat.le_trans ha (Nat.le_add_right _ _)
  | right hr => cases hg.symm.trans hr
  | @left l op c d e f a b t _ hx hj hp hm hb _ ihb iht =>
    intro h ha htighter
    have hr := hp.ready (hc.unread (ne_endOfInput_of_binaryOp hx))
    have he := hb.stands (c := d.enter) hr
    have hlevels : o.maxDepth - c.depth = o.maxDepth - d.enter.depth + 1 := by
      rw [Cursor.depth_enter, ← hp.depth]
      omega
    have hoperand : b.count.depth ≤ l.tighter.tallest (o.maxDepth - d.enter.depth) := ihb hr
    have hroom := Level.height_le_of_tallest_pos (Nat.lt_of_lt_of_le b.depth_pos hoperand)
    -- the operand keeps to `h` in fewer levels, and the fold adds a node above both
    have hless : l.tighter.tallest (o.maxDepth - d.enter.depth) ≤ h :=
      Nat.le_trans (Level.tallest_mono _ (by omega)) htighter
    have hjoined : (Expr.binary op a b).count.depth ≤ h + 1 := by
      simp only [Expr.count]
      omega
    have hchain := iht he.ready (h + 1) hjoined (by rw [he.depth]; omega)
    rw [he.depth] at hchain
    omega
  | @number c d v hm _ _ _ =>
    have : o.maxDepth - c.depth ≤ tallestFactor (o.maxDepth - c.depth) := le_tallestFactor _
    show 1 ≤ tallestFactor (o.maxDepth - c.depth)
    omega
  | @group c d e f t hm hx hp _ _ _ ih =>
    have hr : Ready d.ahead := hp.ready_of_enter hc (by rw [hx]; decide)
    have hinner : t.count.depth ≤ Level.expression.tallest (o.maxDepth - d.depth) := ih hr
    have hlevels : o.maxDepth - c.depth = o.maxDepth - d.depth + 1 := by
      rw [hp.depth, Cursor.depth_enter]
      omega
    show t.count.depth ≤ tallestFactor (o.maxDepth - c.depth)
    rw [hlevels]
    exact Nat.le_trans hinner (tallest_expression_le _)
  | @sign c d e s t hm hx hp _ ih =>
    have hr : Ready d.ahead := hp.ready_of_enter hc (ne_endOfInput_of_sign hx)
    have hinner : t.count.depth ≤ tallestFactor (o.maxDepth - d.depth) := ih hr
    have hlevels : o.maxDepth - c.depth = o.maxDepth - d.depth + 1 := by
      rw [hp.depth, Cursor.depth_enter]
      omega
    have := tallestFactor_lt_succ (o.maxDepth - d.depth)
    show 1 + t.count.depth ≤ tallestFactor (o.maxDepth - c.depth)
    rw [hlevels]
    omega

theorem depth_le_tallest {source : String} {o : Options} {t : Expr} (hg : o.grouping = .left)
    (h : parse source o = .ok t) : t.count.depth ≤ Level.expression.tallest o.maxDepth := by
  obtain ⟨d, hrun⟩ := (parse_eq_ok_iff source o).mp h
  obtain ⟨b, _, hb, hr, ht, _⟩ := run_parses hrun
  have hbounds : t.count.depth ≤ Level.expression.tallest (o.maxDepth - b.depth) := ht.bounds hg hr
  rwa [hb] at hbounds

end Calculator.Parse
