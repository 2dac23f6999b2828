import Calculator.Binary64.Shortest
import Calculator.Proofs.ExactInteger

/-!
# The double nearest to a decimal number

Rounding depends on the quotient alone, and the two bounds on the exponent are
shortcuts: the double of a decimal number on the grid of `10 ^ -1074` is its
value rounded once.
-/

namespace Calculator

namespace Binary64

/-! ## Equal quotients -/

theorem roundHalfEven_mul_left {k : Nat} (hk : 0 < k) (num den : Nat) :
    roundHalfEven (k * num) (k * den) = roundHalfEven num den := by
  have hbelow : 2 * (k * (num % den)) < k * den ↔ 2 * (num % den) < den := by
    rw [Nat.mul_left_comm]
    exact Nat.mul_lt_mul_left hk
  have habove : k * den < 2 * (k * (num % den)) ↔ den < 2 * (num % den) := by
    rw [Nat.mul_left_comm]
    exact Nat.mul_lt_mul_left hk
  simp only [roundHalfEven, Nat.mul_div_mul_left _ _ hk, Nat.mul_mod_mul_left, hbelow, habove]

theorem roundUnits_mul_left {k : Nat} (hk : 0 < k) (num den : Nat) :
    roundUnits (k * num) (k * den) = roundUnits num den := by
  simp only [roundUnits, Nat.mul_div_mul_left _ _ hk, Nat.mul_assoc, roundHalfEven_mul_left hk]

theorem roundUnits_congr {num den num' den' : Nat} (hd : 0 < den) (hd' : 0 < den')
    (h : num * den' = num' * den) : roundUnits num den = roundUnits num' den' :=
  calc roundUnits num den = roundUnits (den' * num) (den' * den) := (roundUnits_mul_left hd' _ _).symm
    _ = roundUnits (den * num') (den * den') := by rw [Nat.mul_comm den' num, h, Nat.mul_comm num', Nat.mul_comm den']
    _ = roundUnits num' den' := roundUnits_mul_left hd _ _

theorem round_of_roundUnits {num den units : Nat} (h : roundUnits num den = units) (hr : Representable units)
    (negative : Bool) : round negative num den = .finite negative units hr := by
  subst h
  simp [round, hr.1]

theorem round_congr {num den num' den' : Nat} (h : roundUnits num den = roundUnits num' den') (negative : Bool) :
    round negative num den = round negative num' den' := by
  unfold round
  simp only [h]

/-! ## Numbers out of range -/

theorem roundUnits_eq_zero {num den : Nat} (h : 2 * num < den) : roundUnits num den = 0 := by
  have hq : num / den = 0 := Nat.div_eq_of_lt (by omega)
  have hulp : ulp 0 = 1 := by decide
  have hround : roundHalfEven num den = 0 := by
    have hr : num % den = num := Nat.mod_eq_of_lt (by omega)
    simp [roundHalfEven, hq, hr, h]
  rw [roundUnits, hq, hulp, Nat.mul_one, Nat.mul_one, hround]

theorem round_of_unitLimit_le {n : Nat} (h : unitLimit ≤ n) (negative : Bool) :
    round negative n 1 = .infinite negative := by
  have hle : unitLimit ≤ roundUnits n 1 := by
    unfold unitLimit at h ⊢
    exact two_pow_le_roundUnits 2098 (by decide) h
  simp [round, Nat.not_lt.mpr hle]

end Binary64

namespace Decimal

/-! ## Powers -/

-- The exponents are variables in these, or a rewrite would compute the power.

theorem ten_pow (n : Nat) : 10 ^ n = 2 ^ n * 5 ^ n := by
  have hpow : ∀ a b : Nat, (a * b) ^ n = a ^ n * b ^ n := fun a b => Nat.mul_pow a b n
  exact hpow 2 5

theorem ten_pow_add (a b : Nat) : 10 ^ (a + b) = 10 ^ a * 10 ^ b := Nat.pow_add 10 a b

theorem two_pow_le_two_pow {a b : Nat} (h : a ≤ b) : 2 ^ a ≤ 2 ^ b := Nat.pow_le_pow_right (by decide) h

theorem two_pow_le_ten_pow (n : Nat) : 2 ^ (3 * n) ≤ 10 ^ n := by
  have hpow : ∀ k : Nat, 2 ^ (3 * k) = (2 ^ 3) ^ k := Nat.pow_mul 2 3
  have hmono : ∀ a b : Nat, a ≤ b → a ^ n ≤ b ^ n := fun a b h => Nat.pow_le_pow_left h n
  rw [hpow]
  exact hmono _ _ (by decide)

theorem five_pow_pos : 0 < 5 ^ 1074 := by
  have hpos : ∀ n : Nat, 0 < 5 ^ n := fun n => Nat.pow_pos (by decide)
  exact hpos 1074

theorem ten_pow_pos (n : Nat) : 0 < 10 ^ n := Nat.pow_pos (by decide)

/-! ## Numbers on the grid -/

/-- A number with an exponent of at least -1074 is a multiple of `10 ^ -1074`. -/
def OnGrid (d : Decimal) : Prop := -1074 ≤ d.exponent

/-- The multiple. -/
def points (d : Decimal) : Nat := d.digits * 10 ^ (d.exponent + 1074).toNat

theorem onGrid_of_le {digits : Nat} {exponent : Int} (h : -1074 ≤ exponent) : OnGrid ⟨digits, exponent⟩ := h

theorem points_sub (digits place : Nat) : points ⟨digits, (place : Int) - 1074⟩ = digits * 10 ^ place := by
  have hexponent : ((place : Int) - 1074 + 1074).toNat = place := by omega
  unfold points
  dsimp only
  rw [hexponent]

theorem points_of_nonneg (digits size : Nat) :
    points ⟨digits, size⟩ = digits * 10 ^ size * Binary64.unitsPerOne * 5 ^ 1074 := by
  have hexponent : ((size : Int) + 1074).toNat = size + 1074 := by omega
  unfold points Binary64.unitsPerOne
  dsimp only
  rw [hexponent, ten_pow_add, ten_pow 1074, Nat.mul_assoc, Nat.mul_assoc]

theorem points_mul_of_neg (digits : Nat) {size : Nat} (h : size ≤ 1074) :
    points ⟨digits, -size⟩ * 10 ^ size = digits * Binary64.unitsPerOne * 5 ^ 1074 := by
  have hexponent : (-(size : Int) + 1074).toNat = 1074 - size := by omega
  have hsplit : 10 ^ (1074 - size) * 10 ^ size = 2 ^ 1074 * 5 ^ 1074 := by
    rw [← ten_pow_add, Nat.sub_add_cancel h, ten_pow 1074]
  unfold points Binary64.unitsPerOne
  dsimp only
  rw [hexponent, Nat.mul_assoc, hsplit, Nat.mul_assoc]

/-! ## Reading a number -/

theorem unitLimit_le {digits size : Nat} (hd : digits ≠ 0) (hs : 400 < size) :
    Binary64.unitLimit ≤ digits * 10 ^ size * Binary64.unitsPerOne := by
  have hlimit : Binary64.unitLimit = 2 ^ 1024 * Binary64.unitsPerOne := by
    rw [Binary64.two_pow_mul_unitsPerOne, Binary64.unitLimit]
  rw [hlimit]
  apply Nat.mul_le_mul_right
  calc 2 ^ 1024 ≤ 2 ^ (3 * size) := two_pow_le_two_pow (by omega)
    _ ≤ 10 ^ size := two_pow_le_ten_pow size
    _ ≤ digits * 10 ^ size := Nat.le_mul_of_pos_left _ (Nat.pos_of_ne_zero hd)

theorem two_mul_points_lt {digits size : Nat} (hs : size ≤ 1074) (hlog : digits.log2 + 400 < size) :
    2 * points ⟨digits, -size⟩ < 5 ^ 1074 := by
  have hlead : digits * Binary64.unitsPerOne < 2 ^ (digits.log2 + 1) * Binary64.unitsPerOne :=
    Nat.mul_lt_mul_of_pos_right Nat.lt_log2_self Binary64.unitsPerOne_pos
  have hsmall : 2 * (digits * Binary64.unitsPerOne) < 10 ^ size :=
    calc 2 * (digits * Binary64.unitsPerOne) < 2 * (2 ^ (digits.log2 + 1) * Binary64.unitsPerOne) :=
          Nat.mul_lt_mul_of_pos_left hlead (by decide)
      _ = 2 ^ (digits.log2 + 2) * Binary64.unitsPerOne := by rw [← Nat.mul_assoc, ← Nat.pow_succ']
      _ = 2 ^ (digits.log2 + 2 + 1074) := Binary64.two_pow_mul_unitsPerOne _
      _ ≤ 2 ^ (3 * size) := two_pow_le_two_pow (by omega)
      _ ≤ 10 ^ size := two_pow_le_ten_pow size
  apply Nat.lt_of_mul_lt_mul_right (a := 10 ^ size)
  calc 2 * points ⟨digits, -size⟩ * 10 ^ size = 2 * (digits * Binary64.unitsPerOne) * 5 ^ 1074 := by
        rw [Nat.mul_assoc, points_mul_of_neg digits hs, Nat.mul_assoc, Nat.mul_assoc, Nat.mul_assoc]
    _ < 10 ^ size * 5 ^ 1074 := Nat.mul_lt_mul_of_pos_right hsmall five_pow_pos
    _ = 5 ^ 1074 * 10 ^ size := Nat.mul_comm _ _

theorem toBinary64_of_nonneg (digits size : Nat) (negative : Bool) :
    toBinary64 negative ⟨digits, size⟩ = Binary64.round negative (points ⟨digits, size⟩) (5 ^ 1074) := by
  have hround : ∀ num, points ⟨digits, size⟩ = num * 5 ^ 1074 →
      Binary64.round negative num 1 = Binary64.round negative (points ⟨digits, size⟩) (5 ^ 1074) := by
    intro num h
    apply Binary64.round_congr
    apply Binary64.roundUnits_congr Nat.one_pos five_pow_pos
    rw [h, Nat.mul_one]
  have hpoints := points_of_nonneg digits size
  unfold toBinary64
  by_cases hd : digits = 0
  · rw [if_pos hd]
    apply hround
    rw [hpoints, hd]
    simp only [Nat.zero_mul]
  · rw [if_neg hd, if_pos (Int.natCast_nonneg size)]
    dsimp only [Int.natAbs_natCast]
    by_cases hs : 400 < size
    · rw [if_pos hs, ← hround _ hpoints, Binary64.round_of_unitLimit_le (unitLimit_le hd hs)]
    · rw [if_neg hs]
      exact hround _ hpoints

theorem toBinary64_of_neg (digits : Nat) {size : Nat} (hpos : 0 < size) (hle : size ≤ 1074) (negative : Bool) :
    toBinary64 negative ⟨digits, -size⟩ = Binary64.round negative (points ⟨digits, -size⟩) (5 ^ 1074) := by
  have hpoints := points_mul_of_neg digits hle
  have hsign : ¬ (0 : Int) ≤ -(size : Int) := by omega
  have habs : (-(size : Int)).natAbs = size := by omega
  unfold toBinary64
  by_cases hd : digits = 0
  · rw [if_pos hd]
    apply Binary64.round_congr
    apply Binary64.roundUnits_congr Nat.one_pos five_pow_pos
    simp only [points, hd, Nat.zero_mul]
  · simp only [if_neg hd, if_neg hsign, habs]
    by_cases hlog : digits.log2 + 400 < size
    · rw [if_pos hlog]
      apply Binary64.round_congr
      rw [Binary64.roundUnits_eq_zero (two_mul_points_lt hle hlog), Binary64.roundUnits_eq_zero (by decide)]
    · rw [if_neg hlog]
      apply Binary64.round_congr
      exact Binary64.roundUnits_congr (ten_pow_pos size) five_pow_pos hpoints.symm

theorem toBinary64_eq_round {d : Decimal} (h : d.OnGrid) (negative : Bool) :
    d.toBinary64 negative = Binary64.round negative d.points (5 ^ 1074) := by
  obtain ⟨digits, exponent⟩ := d
  unfold OnGrid at h
  dsimp only at h
  by_cases hnonneg : 0 ≤ exponent
  · obtain ⟨size, rfl⟩ := Int.eq_ofNat_of_zero_le hnonneg
    exact toBinary64_of_nonneg digits size negative
  · obtain ⟨size, rfl⟩ := Int.exists_eq_neg_ofNat (by omega : exponent ≤ 0)
    exact toBinary64_of_neg digits (by omega) (by omega) negative

end Decimal

end Calculator
