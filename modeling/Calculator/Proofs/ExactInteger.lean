import Calculator.Binary64.Tolerance

/-!
# Whole numbers as doubles

Up to `maxExactInteger` a whole number is its own double. A larger one rounds
to at least `2 ^ 53`, so `isExactInteger` tells the two apart after rounding.
-/

namespace Calculator.Binary64

/-! ## Rounding does not cross a power of two -/

theorem two_pow_le_roundUnits (k : Nat) {n : Nat} (hk : 52 ≤ k) (h : 2 ^ k ≤ n) : 2 ^ k ≤ roundUnits n 1 := by
  have hn : n ≠ 0 := by
    rintro rfl
    exact absurd h (Nat.not_le_of_lt (Nat.two_pow_pos k))
  have hlog : k ≤ n.log2 := (Nat.le_log2 hn).mpr h
  have hsplit : 2 ^ 52 * ulp n = 2 ^ n.log2 := by
    rw [ulp, ← Nat.pow_add]
    congr 1
    omega
  -- the 53 leading digits of `n` start with a one, and rounding keeps at least them
  have hlead : 2 ^ 52 ≤ n / ulp n := by
    rw [Nat.le_div_iff_mul_le (ulp_pos n), hsplit]
    exact Nat.log2_self_le hn
  calc 2 ^ k ≤ 2 ^ n.log2 := Nat.pow_le_pow_right (by decide) hlog
    _ = 2 ^ 52 * ulp n := hsplit.symm
    _ ≤ n / ulp n * ulp n := Nat.mul_le_mul_right _ hlead
    _ ≤ roundHalfEven n (ulp n) * ulp n := Nat.mul_le_mul_right _ (le_roundHalfEven _ _)
    _ = roundUnits n 1 := by rw [roundUnits, Nat.div_one, Nat.one_mul]

/-! ## Exact integers -/

theorem two_pow_mul_unitsPerOne (k : Nat) : 2 ^ k * unitsPerOne = 2 ^ (k + 1074) := by
  have hadd : ∀ a b : Nat, 2 ^ (a + b) = 2 ^ a * 2 ^ b := Nat.pow_add 2
  rw [unitsPerOne, hadd]

theorem unitsPerOne_pos : 0 < unitsPerOne := by
  have hpos : ∀ k : Nat, 0 < 2 ^ k := Nat.two_pow_pos
  rw [unitsPerOne]
  exact hpos 1074

theorem mul_two_pow_lt {n : Nat} (a b : Nat) (hn : n < 2 ^ 53) (h : 53 + a ≤ b) :
    n * 2 ^ a < 2 ^ b :=
  calc n * 2 ^ a < 2 ^ 53 * 2 ^ a := Nat.mul_lt_mul_of_pos_right hn (Nat.two_pow_pos a)
    _ = 2 ^ (53 + a) := (Nat.pow_add 2 53 a).symm
    _ ≤ 2 ^ b := Nat.pow_le_pow_right (by decide) h

theorem representable_of_le {n : Nat} (h : n ≤ maxExactInteger) : Representable (n * unitsPerOne) := by
  have hn : n < 2 ^ 53 := by
    unfold maxExactInteger at h
    omega
  unfold Representable unitsPerOne unitLimit
  exact ⟨mul_two_pow_lt 1074 2098 hn (by decide), @ulp_dvd_mul n 1074 (Nat.le_of_lt hn)⟩

theorem ofNat_of_le {n : Nat} (h : n ≤ maxExactInteger) :
    ofNat n = .finite false (n * unitsPerOne) (representable_of_le h) :=
  round_one false (representable_of_le h)

theorem lt_roundUnits_of_lt {n : Nat} (h : maxExactInteger < n) :
    maxExactInteger * unitsPerOne < roundUnits (n * unitsPerOne) 1 := by
  have hn : 2 ^ 53 ≤ n := by
    unfold maxExactInteger at h
    omega
  have hpow : 2 ^ (53 + 1074) ≤ n * unitsPerOne := by
    rw [← two_pow_mul_unitsPerOne 53]
    exact Nat.mul_le_mul_right _ hn
  have hround := two_pow_le_roundUnits (53 + 1074) (by decide) hpow
  rw [← two_pow_mul_unitsPerOne 53] at hround
  exact Nat.lt_of_lt_of_le (Nat.mul_lt_mul_of_pos_right (by decide) unitsPerOne_pos) hround

/-- The rounded value of a whole number shows whether the number was exact. -/
theorem isExactInteger_ofNat {n : Nat} : (ofNat n).isExactInteger = true ↔ n ≤ maxExactInteger := by
  rcases Nat.lt_or_ge maxExactInteger n with h | h
  · have hlt := lt_roundUnits_of_lt h
    refine ⟨fun he => ?_, fun he => absurd he (Nat.not_le_of_lt h)⟩
    unfold ofNat round at he
    dsimp only at he
    split at he
    · simp only [isExactInteger, Bool.and_eq_true, decide_eq_true_eq] at he
      exact absurd he.1.2 (Nat.not_le_of_lt hlt)
    · simp [isExactInteger] at he
  · refine ⟨fun _ => h, fun _ => ?_⟩
    rw [ofNat_of_le h]
    simp only [isExactInteger, Bool.not_false, Bool.true_or, Bool.true_and, Bool.and_eq_true,
      decide_eq_true_eq, Nat.mul_mod_left, and_true]
    exact Nat.mul_le_mul_right _ h

end Calculator.Binary64
