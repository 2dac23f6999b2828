import Calculator.Proofs.DecimalValue
import Mathlib.Algebra.Order.Field.Basic
import Mathlib.Algebra.Order.Field.Rat
import Mathlib.Tactic.Linarith
import Mathlib.Tactic.NormNum

/-!
# Agreement up to the tolerance

The tolerance times the scale of two doubles is exact, so the only rounding in
`approxEq` is that of the difference. Rounding does not carry the difference
across a double, and adds or takes at most one part in `2 ^ 53`.
-/

namespace Calculator.Binary64

/-! ## What rounding keeps -/

theorem roundHalfEven_le_of_le_mul {num den k : Nat} (hd : 0 < den) (h : num ≤ den * k) :
    roundHalfEven num den ≤ k := by
  have hq : num / den ≤ k := Nat.div_le_of_le_mul h
  rcases Nat.eq_or_lt_of_le hq with heq | hlt
  · have hnum : num = den * k := Nat.le_antisymm h (heq ▸ Nat.mul_div_le num den)
    rw [roundHalfEven_of_dvd hd (hnum ▸ Nat.dvd_mul_right den k), heq]
  · exact Nat.le_trans (roundHalfEven_le num den) hlt

theorem two_mul_le_roundHalfEven {num den : Nat} (hd : 0 < den) :
    2 * num ≤ 2 * (roundHalfEven num den * den) + den := by
  have hsplit := Nat.div_add_mod num den
  have hr := Nat.mod_lt num hd
  have hmono : ∀ k, num / den + k ≤ roundHalfEven num den →
      den * (num / den) + k * den ≤ roundHalfEven num den * den := by
    intro k hk
    rw [Nat.mul_comm den, ← Nat.add_mul]
    exact Nat.mul_le_mul_right den hk
  by_cases hup : den < 2 * (num % den)
  · have hone := hmono 1 (by unfold roundHalfEven; dsimp only; split <;> omega)
    omega
  · have hzero := hmono 0 (le_roundHalfEven num den)
    omega

theorem log2_mono {n m : Nat} (hn : n ≠ 0) (h : n ≤ m) : n.log2 ≤ m.log2 :=
  (Nat.le_log2 (by omega)).mpr (Nat.le_trans (Nat.log2_self_le hn) h)

theorem roundUnits_le {n m : Nat} (h : n ≤ m) (hm : ulp m ∣ m) : roundUnits n 1 ≤ m := by
  by_cases hn : n = 0
  · subst hn
    exact Nat.le_trans (Nat.le_of_eq (roundUnits_one (Nat.dvd_zero _))) h
  -- the grid of the smaller number is the finer one, so the larger number lies on it
  have hfiner : ulp n ∣ ulp m := Nat.pow_dvd_pow 2 (Nat.sub_le_sub_right (log2_mono hn h) 52)
  obtain ⟨k, hk⟩ := Nat.dvd_trans hfiner hm
  have hround : roundHalfEven n (ulp n) ≤ k := roundHalfEven_le_of_le_mul (ulp_pos n) (hk ▸ h)
  rw [roundUnits, Nat.div_one, Nat.one_mul, hk, Nat.mul_comm]
  exact Nat.mul_le_mul_left (ulp n) hround

theorem roundUnits_error (n : Nat) : 2 ^ 53 * n ≤ 2 ^ 53 * roundUnits n 1 + n := by
  by_cases hsmall : n.log2 < 52
  · have hulp : ulp n = 1 := by rw [ulp, Nat.sub_eq_zero_of_le (Nat.le_of_lt hsmall), Nat.pow_zero]
    rw [roundUnits_one (hulp ▸ Nat.one_dvd n)]
    omega
  · have hn : n ≠ 0 := by
      rintro rfl
      exact hsmall (by decide)
    have hlead : 2 ^ 52 * ulp n ≤ n := by
      rw [ulp, ← Nat.pow_add, show 52 + (n.log2 - 52) = n.log2 by omega]
      exact Nat.log2_self_le hn
    have hhalf := @two_mul_le_roundHalfEven n (ulp n) (ulp_pos n)
    rw [roundUnits, Nat.div_one, Nat.one_mul]
    omega

/-! ## The difference -/

section
variable {s t : Bool} {u v m : Nat}

theorem abs_round (s : Bool) (num den : Nat) : (round s num den).abs = round false num den := by
  unfold round
  dsimp only
  split <;> rfl

/-- The exact distance, rounded once. -/
theorem abs_sub_finite (hu : Representable u) (hv : Representable v) :
    (finite s u hu - finite t v hv).abs = round false (signed s u - signed t v).natAbs 1 := by
  have hzero : zero.abs = round false 0 1 := by rw [zero, ofNat, Nat.zero_mul, abs_round]
  show (if s = !t then round s (u + v) 1
    else if u < v then round (!t) (v - u) 1 else if v < u then round s (u - v) 1 else zero).abs = _
  have hsigned : (signed s u - signed t v).natAbs = if s = !t then u + v else ((u : Int) - v).natAbs := by
    cases s <;> cases t <;> simp [signed] <;> omega
  rw [hsigned]
  split
  · exact abs_round s _ _
  · split
    · rw [abs_round, show ((u : Int) - v).natAbs = v - u by omega]
    · split
      · rw [abs_round, show ((u : Int) - v).natAbs = u - v by omega]
      · rw [hzero, show ((u : Int) - v).natAbs = 0 by omega]

/-! ## The scale -/

theorem representable_max (hu : Representable u) (hv : Representable v) : Representable (max u v) := by
  rcases Nat.le_total u v with h | h
  · rwa [Nat.max_eq_right h]
  · rwa [Nat.max_eq_left h]

theorem larger_finite (hu : Representable u) (hv : Representable v) :
    larger (finite false u hu) (finite false v hv) = finite false (max u v) (representable_max hu hv) := by
  have hle : (finite false u hu).le (finite false v hv) = decide (u ≤ v) := by simp [le, signed]
  rw [larger, hle]
  by_cases h : u ≤ v
  · simp [h]
  · simp [h, Nat.max_eq_left (Nat.le_of_not_le h)]

theorem representable_unitsPerOne : Representable unitsPerOne := by
  have h := representable_of_le (n := 1) (by decide)
  rwa [Nat.one_mul] at h

theorem one_eq : one = finite false unitsPerOne representable_unitsPerOne := by
  rw [one, ofNat, Nat.one_mul, round_one false representable_unitsPerOne]

theorem representable_two_pow {k : Nat} (h : k < 2098) : Representable (2 ^ k) := by
  have hgrid := @ulp_dvd_mul 1 k (by decide)
  rw [Nat.one_mul] at hgrid
  have hmono : ∀ a b : Nat, a < b → 2 ^ a < 2 ^ b := fun a b => Nat.pow_lt_pow_right (by decide)
  unfold Representable unitLimit
  exact ⟨hmono _ _ h, hgrid⟩

theorem tolerance_eq : tolerance = finite false (2 ^ 1026) (representable_two_pow (by decide)) :=
  round_one false _

theorem two_pow_mul_two_pow_eq : 2 ^ 1026 * 2 ^ 48 = unitsPerOne := by
  have hadd : ∀ a b : Nat, 2 ^ a * 2 ^ b = 2 ^ (a + b) := fun a b => (Nat.pow_add 2 a b).symm
  rw [hadd, unitsPerOne]

theorem le_log2_of_unitsPerOne_le (h : unitsPerOne ≤ m) : 1074 ≤ m.log2 := by
  have hlog : ∀ k, 2 ^ k ≤ m → k ≤ m.log2 := fun k hk =>
    (Nat.le_log2 (Nat.ne_of_gt (Nat.lt_of_lt_of_le (Nat.two_pow_pos k) hk))).mpr hk
  exact hlog 1074 h

/-- Dividing a double of at least 1 by `2 ^ 48` is exact. -/
theorem exists_eq_mul (hm : Representable m) (hone : unitsPerOne ≤ m) : ∃ n, m = 2 ^ 48 * n ∧ Representable n := by
  have hlog := le_log2_of_unitsPerOne_le hone
  have hulp : ulp m = 2 ^ 48 * 2 ^ (m.log2 - 100) := by
    rw [ulp, ← Nat.pow_add]
    congr 1
    omega
  obtain ⟨k, hk⟩ := hm.2
  have hlead : k < 2 ^ 53 := by
    have hlt := lt_ulp_mul m
    rw [Nat.mul_comm] at hlt
    refine Nat.lt_of_mul_lt_mul_left (a := ulp m) ?_
    rw [← hk]
    exact hlt
  have hsplit : m = 2 ^ 48 * (k * 2 ^ (m.log2 - 100)) := by
    rw [Nat.mul_left_comm, Nat.mul_comm k, ← hulp]
    exact hk
  refine ⟨_, hsplit, Nat.lt_of_le_of_lt ?_ hm.1, ulp_dvd_mul (Nat.le_of_lt hlead)⟩
  omega

theorem mul_finite (hu : Representable u) (hv : Representable v) :
    finite s u hu * finite t v hv = round (s ^^ t) (u * v) unitsPerOne := by
  show mul (finite s u hu) (finite t v hv) = _
  rw [mul]

theorem tolerance_mul {n : Nat} (hm : Representable m) (hn : Representable n) (h : m = 2 ^ 48 * n) :
    tolerance * finite false m hm = finite false n hn := by
  have hunits : roundUnits (2 ^ 1026 * m) unitsPerOne = n :=
    calc roundUnits (2 ^ 1026 * m) unitsPerOne = roundUnits (unitsPerOne * n) (unitsPerOne * 1) := by
          rw [h, ← Nat.mul_assoc, two_pow_mul_two_pow_eq, Nat.mul_one]
      _ = roundUnits n 1 := roundUnits_mul_left unitsPerOne_pos n 1
      _ = n := roundUnits_one hn.2
  rw [tolerance_eq, mul_finite]
  exact round_of_roundUnits hunits hn false

/-! ## Finite doubles -/

theorem round_le_finite_iff (num den : Nat) (hv : Representable v) :
    (round false num den).le (finite false v hv) = true ↔ roundUnits num den ≤ v := by
  by_cases h : roundUnits num den < unitLimit
  · rw [round, dif_pos h]
    simp only [le, signed, Bool.false_eq_true, ite_false, decide_eq_true_eq, Int.ofNat_le]
  · rw [round, dif_neg h]
    refine ⟨fun hle => ?_, fun hle => absurd (Nat.lt_of_le_of_lt hle hv.1) h⟩
    cases hle

/-- In units: the rounded distance is at most `2 ^ -48` of the scale, which is a double itself. -/
theorem approxEq_finite (hu : Representable u) (hv : Representable v) :
    ∃ n, Representable n ∧ max (max u v) unitsPerOne = 2 ^ 48 * n ∧
      (approxEq (finite s u hu) (finite t v hv) = true ↔ roundUnits (signed s u - signed t v).natAbs 1 ≤ n) := by
  have hm := representable_max (representable_max hu hv) representable_unitsPerOne
  obtain ⟨n, hscale, hn⟩ := exists_eq_mul hm (Nat.le_max_right _ _)
  refine ⟨n, hn, hscale, ?_⟩
  show (finite s u hu - finite t v hv).abs.le
    (tolerance * ((finite false u hu).larger (finite false v hv)).larger one) = true ↔ _
  rw [one_eq, larger_finite, larger_finite, tolerance_mul _ hn hscale, abs_sub_finite, round_le_finite_iff]

end

/-! ## The numbers that doubles are -/

/-- The number of a finite double, exactly. -/
def toRat? : Binary64 → Option ℚ
  | .finite s u _ => some ((signed s u : ℚ) / unitsPerOne)
  | _ => none

/-- `2 ^ -48` of the larger magnitude, which counts as 1 at least. -/
def slack (x y : ℚ) : ℚ := max 1 (max |x| |y|) / 2 ^ 48

section
variable {s t : Bool} {u v : Nat} {x y : ℚ}

theorem abs_signed (s : Bool) (u : Nat) : |(signed s u : ℚ)| = u := by
  cases s <;> simp [signed]

theorem unitsPerOne_cast_pos : (0 : ℚ) < unitsPerOne := Nat.cast_pos.mpr unitsPerOne_pos

theorem slack_eq (hx : x = (signed s u : ℚ) / unitsPerOne) (hy : y = (signed t v : ℚ) / unitsPerOne) :
    slack x y = ((max (max u v) unitsPerOne : Nat) : ℚ) / unitsPerOne / 2 ^ 48 := by
  have hpos := unitsPerOne_cast_pos
  have hone : (1 : ℚ) = (unitsPerOne : ℚ) / unitsPerOne := (div_self hpos.ne').symm
  rw [slack, hx, hy, abs_div, abs_div, abs_signed, abs_signed, abs_of_pos hpos, hone,
    max_div_div_right hpos.le, max_div_div_right hpos.le, max_comm, Nat.cast_max, Nat.cast_max]

theorem abs_sub_eq (hx : x = (signed s u : ℚ) / unitsPerOne) (hy : y = (signed t v : ℚ) / unitsPerOne) :
    |x - y| = ((signed s u - signed t v).natAbs : ℚ) / unitsPerOne := by
  rw [hx, hy, ← sub_div, abs_div, abs_of_pos unitsPerOne_cast_pos, Nat.cast_natAbs, Int.cast_abs, Int.cast_sub]

theorem abs_sub_le_slack_iff (hx : x = (signed s u : ℚ) / unitsPerOne) (hy : y = (signed t v : ℚ) / unitsPerOne) :
    |x - y| ≤ slack x y ↔ 2 ^ 48 * (signed s u - signed t v).natAbs ≤ max (max u v) unitsPerOne := by
  rw [abs_sub_eq hx hy, slack_eq hx hy, div_right_comm, div_le_div_iff_of_pos_right unitsPerOne_cast_pos,
    le_div_iff₀ (by positivity), mul_comm, ← Nat.cast_le (α := ℚ)]
  push_cast
  rfl

theorem exists_finite_of_toRat? {a : Binary64} (h : a.toRat? = some x) :
    ∃ s u hu, a = finite s u hu ∧ x = (signed s u : ℚ) / unitsPerOne := by
  cases a with
  | nan => cases h
  | infinite s => cases h
  | finite s u hu => exact ⟨s, u, hu, rfl, (Option.some.inj h).symm⟩

end

/-! ## The test -/

section
variable {s t : Bool} {u v : Nat} {a b : Binary64} {x y : ℚ}

theorem approxEq_self (a : Binary64) : approxEq a a = true := by
  cases a with
  | nan => rfl
  | infinite s => simp [approxEq]
  | finite s u hu =>
    obtain ⟨n, -, -, h⟩ := approxEq_finite (s := s) (t := s) hu hu
    rw [h, Int.sub_self, Int.natAbs_zero, roundUnits_one (Nat.dvd_zero _)]
    exact Nat.zero_le n

theorem approxEq_finite_comm (hu : Representable u) (hv : Representable v) :
    approxEq (finite s u hu) (finite t v hv) = approxEq (finite t v hv) (finite s u hu) := by
  obtain ⟨n, -, hn, h⟩ := approxEq_finite (s := s) (t := t) hu hv
  obtain ⟨m, -, hm, h'⟩ := approxEq_finite (s := t) (t := s) hv hu
  have hnm : n = m := by omega
  rw [Bool.eq_iff_iff, h, h', hnm, ← Int.natAbs_neg, Int.neg_sub]

theorem approxEq_comm (a b : Binary64) : approxEq a b = approxEq b a := by
  cases a with
  | nan => cases b <;> rfl
  | infinite s =>
    cases b with
    | nan => rfl
    | infinite t => simp [approxEq, eq_comm]
    | finite t v hv => simp [approxEq]
  | finite s u hu =>
    cases b with
    | nan => rfl
    | infinite t => simp [approxEq]
    | finite t v hv => exact approxEq_finite_comm hu hv

theorem approxEq_nan_left (h : b ≠ .nan) : approxEq .nan b = false := by
  simpa [approxEq] using h

theorem approxEq_infinite_left (h : b ≠ .infinite s) : approxEq (.infinite s) b = false := by
  cases b with
  | nan => rfl
  | infinite t => simpa [approxEq] using h
  | finite t v hv => simp [approxEq]

theorem approxEq_of_le_slack (ha : a.toRat? = some x) (hb : b.toRat? = some y) (h : |x - y| ≤ slack x y) :
    approxEq a b = true := by
  obtain ⟨s, u, hu, rfl, hx⟩ := exists_finite_of_toRat? ha
  obtain ⟨t, v, hv, rfl, hy⟩ := exists_finite_of_toRat? hb
  obtain ⟨n, hn, hscale, hiff⟩ := approxEq_finite (s := s) (t := t) hu hv
  rw [abs_sub_le_slack_iff hx hy, hscale] at h
  rw [hiff]
  exact roundUnits_le (Nat.le_of_mul_le_mul_left h (by decide)) hn.2

theorem le_slack_of_approxEq (ha : a.toRat? = some x) (hb : b.toRat? = some y) (h : approxEq a b = true) :
    (1 - 1 / 2 ^ 53) * |x - y| ≤ slack x y := by
  obtain ⟨s, u, hu, rfl, hx⟩ := exists_finite_of_toRat? ha
  obtain ⟨t, v, hv, rfl, hy⟩ := exists_finite_of_toRat? hb
  obtain ⟨n, hn, hscale, hiff⟩ := approxEq_finite (s := s) (t := t) hu hv
  have hdistance : 2 ^ 53 * (signed s u - signed t v).natAbs ≤ 2 ^ 53 * n + (signed s u - signed t v).natAbs :=
    calc 2 ^ 53 * (signed s u - signed t v).natAbs
        ≤ 2 ^ 53 * roundUnits (signed s u - signed t v).natAbs 1 + (signed s u - signed t v).natAbs :=
          roundUnits_error _
      _ ≤ 2 ^ 53 * n + (signed s u - signed t v).natAbs :=
          Nat.add_le_add_right (Nat.mul_le_mul_left _ (hiff.mp h)) _
  rw [abs_sub_eq hx hy, slack_eq hx hy, hscale, ← mul_div_assoc, div_right_comm,
    div_le_div_iff_of_pos_right unitsPerOne_cast_pos]
  have hcast : (2 : ℚ) ^ 53 * (signed s u - signed t v).natAbs ≤ 2 ^ 53 * n + (signed s u - signed t v).natAbs := by
    exact_mod_cast hdistance
  push_cast
  linarith

end

/-- `approxEq` accepts every double with itself, in either order alike, and accepts NaN and the
infinities with nothing else. Finite doubles it accepts when they are exactly within the tolerance,
and beyond it at most by the rounding of their difference. -/
theorem approxEq_within_tolerance (a b : Binary64) :
    approxEq a a = true ∧ approxEq a b = approxEq b a ∧
    (Xor (a = .nan) (b = .nan) → approxEq a b = false) ∧
    ((∃ s, a = .infinite s ∨ b = .infinite s) → a ≠ b → approxEq a b = false) ∧
    ∀ x y, a.toRat? = some x → b.toRat? = some y →
      (|x - y| ≤ slack x y → approxEq a b = true) ∧
      (approxEq a b = true → (1 - 1 / 2 ^ 53) * |x - y| ≤ slack x y) := by
  refine ⟨approxEq_self a, approxEq_comm a b, ?_, ?_, fun x y ha hb => ⟨approxEq_of_le_slack ha hb,
    le_slack_of_approxEq ha hb⟩⟩
  · rintro (⟨rfl, hb⟩ | ⟨rfl, ha⟩)
    · exact approxEq_nan_left hb
    · rw [approxEq_comm]
      exact approxEq_nan_left ha
  · rintro ⟨s, rfl | rfl⟩ hne
    · exact approxEq_infinite_left hne.symm
    · rw [approxEq_comm]
      exact approxEq_infinite_left hne

theorem toRat?_ofNat {n : Nat} (h : n ≤ maxExactInteger) : (ofNat n).toRat? = some (n : ℚ) := by
  have hvalue : (signed false (n * unitsPerOne) : ℚ) = n * unitsPerOne := by
    rw [signed, if_neg Bool.false_ne_true, Int.cast_natCast, Nat.cast_mul]
  rw [ofNat_of_le h, toRat?, hvalue, mul_div_cancel_right₀ _ unitsPerOne_cast_pos.ne']

/-- At `2 ^ 48` the tolerance reaches the next whole number and not the one behind it. -/
theorem approxEq_next_whole :
    approxEq (ofNat (2 ^ 48)) (ofNat (2 ^ 48 + 1)) = true ∧ approxEq (ofNat (2 ^ 48)) (ofNat (2 ^ 48 + 2)) = false ∧
    approxEq .nan (ofNat (2 ^ 48)) = false ∧ approxEq (ofNat (2 ^ 48)) (.infinite false) = false := by
  have hbase := toRat?_ofNat (n := 2 ^ 48) (by decide)
  have hnear := (approxEq_within_tolerance _ _).2.2.2.2 _ _ hbase (toRat?_ofNat (n := 2 ^ 48 + 1) (by decide))
  have hfar := (approxEq_within_tolerance _ _).2.2.2.2 _ _ hbase (toRat?_ofNat (n := 2 ^ 48 + 2) (by decide))
  refine ⟨hnear.1 (by norm_num [slack]), Bool.eq_false_iff.mpr fun h => absurd (hfar.2 h) (by norm_num [slack]),
    (approxEq_within_tolerance .nan _).2.2.1 (.inl ⟨rfl, ?_⟩),
    (approxEq_within_tolerance _ (.infinite false)).2.2.2.1 ⟨false, .inr rfl⟩ ?_⟩
  · intro h
    cases h ▸ hbase
  · intro h
    cases h ▸ hbase

end Calculator.Binary64
