import Calculator.Proofs.Scan

/-!
# The levels that an operand needs

`PassesIn n ts` says that the scan reads the tokens `ts` as one factor wherever
an operand may stand, and that `n` levels are enough for it. A number needs one
level, a sign one more than its operand, and a bracketed operation four more
than its operands.
-/

namespace Calculator.Parse

/-- The scan reads the tokens as one factor, and `n` levels are enough for it. -/
def PassesIn (n : Nat) (ts : List Token) : Prop :=
  ∀ limit lenient g outer xs rest, xs.map Lexeme.token = ts → (∀ x ∈ xs, x.Readable) →
    levels (g :: outer) + n ≤ limit + 1 → ∃ signs, scanWithin limit lenient .operand g outer (xs ++ rest) =
      scanWithin limit lenient .operator ⟨g.additive, g.multiplicative, signs⟩ outer rest

section
variable {n m : Nat} {ts us : List Token} {x : Token}

theorem PassesIn.mono (h : PassesIn n ts) (hnm : n ≤ m) : PassesIn m ts :=
  fun limit lenient g outer xs rest hxs hall hroom => h limit lenient g outer xs rest hxs hall (by omega)

theorem passesIn_number (v : Binary64) : PassesIn 1 [.number v] := by
  intro limit lenient g outer xs rest hxs hall hroom
  obtain ⟨y, ys, rfl, hy, hys⟩ := List.map_eq_cons_iff.mp hxs
  obtain rfl := List.map_eq_nil_iff.mp hys
  have hfit : levels (g :: outer) ≤ limit := by omega
  exact ⟨g.signs, scanWithin_number hfit hy ((hall y List.mem_cons_self).2 _ hy)⟩

theorem PassesIn.sign {s : Sign} (hx : x.sign? = some s) (h : PassesIn n ts) : PassesIn (n + 1) (x :: ts) := by
  intro limit lenient g outer xs rest hxs hall hroom
  obtain ⟨y, ys, rfl, hy, hys⟩ := List.map_eq_cons_iff.mp hxs
  rw [List.forall_mem_cons] at hall
  rw [levels_cons] at hroom
  have hdeeper : levels (g.addSign :: outer) + n ≤ limit + 1 := by
    simp only [levels_cons, Group.levels, Group.addSign] at hroom ⊢
    omega
  have hfit : levels (g :: outer) ≤ limit := by
    rw [levels_cons]
    simp only [levels_cons, Group.levels, Group.addSign] at hdeeper ⊢
    omega
  rw [List.cons_append, scanWithin_sign hfit (hy ▸ hx)]
  exact h limit lenient g.addSign outer ys rest hys hall.2 hdeeper

/-- An operator in a fresh group adds one level to the three of the group. -/
theorem levels_addOperator_fresh (signs : Nat) (op : BinaryOp) :
    (Group.addOperator ⟨0, 0, signs⟩ op).levels = 4 := by
  cases op <;> rfl

theorem PassesIn.bracketed {op : BinaryOp} (hx : x.binaryOp? = some op) (ha : PassesIn n ts) (hb : PassesIn n us) :
    PassesIn (n + 4) (.openParen :: (ts ++ x :: (us ++ [.closeParen]))) := by
  intro limit lenient g outer xs rest hxs hall hroom
  obtain ⟨y, ys, rfl, hy, hys⟩ := List.map_eq_cons_iff.mp hxs
  obtain ⟨as, zs, rfl, has, hzs⟩ := List.map_eq_append_iff.mp hys
  obtain ⟨z, ws, rfl, hz, hws⟩ := List.map_eq_cons_iff.mp hzs
  obtain ⟨bs, vs, rfl, hbs, hvs⟩ := List.map_eq_append_iff.mp hws
  obtain ⟨w, vs, rfl, hw, hvs⟩ := List.map_eq_cons_iff.mp hvs
  obtain rfl := List.map_eq_nil_iff.mp hvs
  rw [List.forall_mem_cons, List.forall_mem_append, List.forall_mem_cons, List.forall_mem_append] at hall
  have hfit : levels (g :: outer) ≤ limit := by omega
  have hfirst : levels (.fresh :: g :: outer) + n ≤ limit + 1 := by
    rw [levels_cons]
    simp only [Group.levels, Group.fresh]
    omega
  have hsecond : ∀ signs, levels (Group.addOperator ⟨0, 0, signs⟩ op :: g :: outer) + n ≤ limit + 1 := by
    intro signs
    rw [levels_cons, levels_addOperator_fresh]
    omega
  obtain ⟨signs, hleft⟩ := ha limit lenient .fresh (g :: outer) as (z :: (bs ++ [w]) ++ rest) has hall.2.1 hfirst
  obtain ⟨signs', hright⟩ := hb limit lenient _ (g :: outer) bs ([w] ++ rest) hbs hall.2.2.2.1 (hsecond signs)
  refine ⟨g.signs, ?_⟩
  rw [List.cons_append, scanWithin_openParen hfit hy, List.append_assoc, hleft, List.cons_append,
    scanWithin_operator (hz ▸ hx), List.append_assoc]
  exact hright.trans (scanWithin_closeParen hw)

end

end Calculator.Parse
