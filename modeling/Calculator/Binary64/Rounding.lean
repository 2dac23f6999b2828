/-!
# Rounding a quotient to 53 binary digits

`roundUnits num den` is the multiple of the local unit in the last place that
is nearest to `num / den`, a half going to the even neighbour. Its result lies
on its own grid (`ulp_dvd_roundUnits`), and a number that does is not changed
(`roundUnits_one`).
-/

namespace Calculator

/-- The power of natural numbers, whatever other powers are in scope. -/
@[default_instance 20000] instance natPow : Pow Nat Nat := instPowNat

namespace Binary64

/-! ## To a whole number -/

/-- The whole number nearest to `num / den`; a half goes to the even neighbour. -/
def roundHalfEven (num den : Nat) : Nat :=
  let q := num / den
  let r := num % den
  if 2 * r < den then q
  else if den < 2 * r then q + 1
  else q + q % 2

theorem le_roundHalfEven (num den : Nat) : num / den ≤ roundHalfEven num den := by
  unfold roundHalfEven
  dsimp only
  split
  · omega
  · split <;> omega

theorem roundHalfEven_le (num den : Nat) : roundHalfEven num den ≤ num / den + 1 := by
  unfold roundHalfEven
  dsimp only
  split
  · omega
  · split <;> omega

theorem roundHalfEven_of_dvd {num den : Nat} (hd : 0 < den) (h : den ∣ num) :
    roundHalfEven num den = num / den := by
  have hr : num % den = 0 := Nat.mod_eq_zero_of_dvd h
  simp [roundHalfEven, hr, hd]

/-! ## To the unit in the last place -/

/-- The distance between neighbours with 53 binary digits around `n`, at least 1. -/
def ulp (n : Nat) : Nat := 2 ^ (n.log2 - 52)

theorem ulp_pos (n : Nat) : 0 < ulp n := Nat.two_pow_pos _

theorem lt_ulp_mul (n : Nat) : n < 2 ^ 53 * ulp n := by
  unfold ulp
  rw [← Nat.pow_add]
  exact Nat.lt_of_lt_of_le Nat.lt_log2_self (Nat.pow_le_pow_right (by decide) (by omega))

/-- The multiple of `ulp (num / den)` nearest to `num / den`, ties to even. -/
def roundUnits (num den : Nat) : Nat :=
  roundHalfEven num (den * ulp (num / den)) * ulp (num / den)

/-- A multiple of a power of two by at most 53 binary digits lies on its own grid. -/
theorem ulp_dvd_mul {m s : Nat} (hm : m ≤ 2 ^ 53) : ulp (m * 2 ^ s) ∣ m * 2 ^ s := by
  rcases Nat.eq_or_lt_of_le hm with rfl | hlt
  · rw [ulp, ← Nat.pow_add, Nat.log2_two_pow]
    exact Nat.pow_dvd_pow 2 (by omega)
  · by_cases h0 : m * 2 ^ s = 0
    · rw [h0]; exact Nat.dvd_zero _
    · have hlog : (m * 2 ^ s).log2 < 53 + s := by
        rw [Nat.log2_lt h0, Nat.pow_add]
        exact Nat.mul_lt_mul_of_pos_right hlt (Nat.two_pow_pos s)
      exact Nat.dvd_trans (Nat.pow_dvd_pow 2 (by omega)) (Nat.dvd_mul_left _ _)

theorem ulp_dvd_roundUnits (num den : Nat) : ulp (roundUnits num den) ∣ roundUnits num den := by
  apply ulp_dvd_mul
  have hq : num / (den * ulp (num / den)) < 2 ^ 53 := by
    rw [← Nat.div_div_eq_div_mul, Nat.div_lt_iff_lt_mul (ulp_pos _)]
    exact lt_ulp_mul _
  exact Nat.le_trans (roundHalfEven_le _ _) hq

theorem roundUnits_one {n : Nat} (h : ulp n ∣ n) : roundUnits n 1 = n := by
  unfold roundUnits
  rw [Nat.div_one, Nat.one_mul, roundHalfEven_of_dvd (ulp_pos n) h, Nat.div_mul_cancel h]

end Binary64

end Calculator
