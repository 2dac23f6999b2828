import Calculator.Proofs.Height

/-!
# The height of a tree and the limit

Grouping to the right, a tree grows by a node only where a level is open, and
the limit bounds its height. Grouping to the left its square does. Neither
bound depends on the length of the source.
-/

namespace Calculator.Parse

/-! ## Grouping to the right -/

/-- How tall the tree of a run is that groups to the right and has so many
levels left. One operator joins the operand before a chain to the rest of it. -/
def Goal.Nests (levels : Nat) (t : Expr) : Goal → Prop
  | production _ => t.count.depth ≤ levels
  | chain _ left => left.count.depth ≤ levels → t.count.depth ≤ levels + 1

theorem Parses.nests {o : Options} {goal : Goal} {c d : Cursor} {t : Expr} (hg : o.grouping = .right)
    (h : Parses o goal c t d) (hc : Ready c.ahead) : goal.Nests (o.maxDepth - c.depth) t := by
  induction h with
  | @operand l c d e a t _ hm ha _ iha iht =>
    have hd := ha.stands (c := c.enter) hc
    have hoperand : a.count.depth ≤ o.maxDepth - c.enter.depth := iha hc
    have hchain : a.count.depth ≤ o.maxDepth - d.depth → t.count.depth ≤ o.maxDepth - d.depth + 1 :=
      iht hd.ready
    rw [hd.depth] at hchain
    have ht := hchain hoperand
    show t.count.depth ≤ o.maxDepth - c.depth
    rw [Cursor.depth_enter] at ht
    omega
  | stop _ => exact fun ha => Nat.le_succ_of_le ha
  | @right l op c d e a b _ hx _ hp _ ih =>
    intro ha
    have hr := hp.ready (hc.unread (ne_endOfInput_of_binaryOp hx))
    have hb : b.count.depth ≤ o.maxDepth - d.depth := ih hr
    rw [hp.depth] at hb
    simp only [Expr.count]
    omega
  | left hl => cases hg.symm.trans hl
  | @number c d v hm _ _ _ =>
    show 1 ≤ o.maxDepth - c.depth
    omega
  | @group c d e f t hm hx hp _ _ _ ih =>
    have ht : t.count.depth ≤ o.maxDepth - d.depth := ih (hp.ready_of_enter hc (by rw [hx]; decide))
    rw [hp.depth, Cursor.depth_enter] at ht
    show t.count.depth ≤ o.maxDepth - c.depth
    omega
  | @sign c d e s t hm hx hp _ ih =>
    have ht : t.count.depth ≤ o.maxDepth - d.depth := ih (hp.ready_of_enter hc (ne_endOfInput_of_sign hx))
    rw [hp.depth, Cursor.depth_enter] at ht
    show 1 + t.count.depth ≤ o.maxDepth - c.depth
    omega

theorem depth_le_limit_of_right {source : String} {o : Options} {t : Expr} (hg : o.grouping = .right)
    (h : parse source o = .ok t) : t.count.depth ≤ o.maxDepth := by
  obtain ⟨d, hrun⟩ := (parse_eq_ok_iff source o).mp h
  obtain ⟨b, _, hb, hr, ht, _⟩ := run_parses hrun
  have hnests : t.count.depth ≤ o.maxDepth - b.depth := ht.nests hg hr
  rwa [hb] at hnests

/-! ## Grouping to the left -/

theorem tallestFactor_le_square : ∀ n, tallestFactor n ≤ n * n
  | 0 => by decide
  | 1 => by decide
  | 2 => by decide
  | 3 => by decide
  | n + 4 => by
    have hsigned := tallestFactor_le_square (n + 3)
    have hgrouped := tallestFactor_le_square (n + 1)
    simp only [Nat.mul_add, Nat.add_mul] at hsigned hgrouped
    apply Nat.max_le.mpr
    simp only [Nat.mul_add, Nat.add_mul]
    constructor <;> omega

theorem tallest_le_square (limit : Nat) : Level.expression.tallest limit ≤ limit * limit := by
  match limit with
  | 0 => decide
  | 1 => decide
  | 2 => decide
  | n + 3 =>
    have hfactor := tallestFactor_le_square (n + 1)
    show tallestFactor (n + 1) + n + n ≤ (n + 3) * (n + 3)
    simp only [Nat.mul_add, Nat.add_mul] at hfactor ⊢
    omega

/-- The limit alone bounds the height of a tree. -/
theorem depth_le_of_parse_eq_ok (source : String) (o : Options) (t : Expr) (h : parse source o = .ok t) :
    t.count.depth ≤ match o.grouping with
      | .right => o.maxDepth
      | .left => o.maxDepth * o.maxDepth := by
  cases hg : o.grouping with
  | right => exact depth_le_limit_of_right hg h
  | left => exact Nat.le_trans (depth_le_tallest hg h) (tallest_le_square o.maxDepth)

theorem depth_le_of_parse_eq_ok_left :
    ∃ t, parse "1*1*1*1+1+1+1" ⟨.left, false, 6⟩ = .ok t ∧ t.count.depth = 7 ∧ t.count.depth ≤ 6 * 6 := by
  have hdepth : (parse "1*1*1*1+1+1+1" ⟨.left, false, 6⟩).toOption.map (fun t => t.count.depth) = some 7 := by
    decide +kernel
  cases hp : parse "1*1*1*1+1+1+1" ⟨.left, false, 6⟩ with
  | ok t =>
    rw [hp] at hdepth
    exact ⟨t, rfl, Option.some.inj hdepth, depth_le_of_parse_eq_ok _ _ t hp⟩
  | error e =>
    rw [hp] at hdepth
    cases hdepth

end Calculator.Parse
