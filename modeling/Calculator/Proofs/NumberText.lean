import Calculator.Proofs.DecimalValue
import Calculator.Text.CharClass
import Mathlib.Data.List.TakeWhile

/-!
# The text of a double

Reading the text of a double gives the double back (`ofText?_toText`). That
needs no shortest text: whichever digits the search takes read back, and so do
all digits of the value. The text has no white space.
-/

namespace Calculator

/-! ## Digits -/

theorem isDigit_of_mem_toDigits {n : Nat} {c : Char} (h : c ∈ Nat.toDigits 10 n) : c.isDigit = true :=
  Nat.isDigit_of_mem_toDigits (by decide) (by decide) h

theorem isDigit_of_mem_replicate_zero {n : Nat} {c : Char} (h : c ∈ List.replicate n '0') : c.isDigit = true := by
  rw [List.eq_of_mem_replicate h]
  decide

theorem toNat_of_isDigit {c : Char} (h : c.isDigit = true) : 48 ≤ c.toNat ∧ c.toNat ≤ 57 := by
  simp only [Char.isDigit, Bool.and_eq_true, decide_eq_true_eq, UInt32.le_iff_toNat_le] at h
  exact h

theorem ne_of_isDigit {c d : Char} (hc : c.isDigit = true) (hd : d.isDigit = false) : c ≠ d := by
  rintro rfl
  simp [hc] at hd

theorem toLower_of_isDigit {c : Char} (h : c.isDigit = true) : c.toLower = c := by
  have hle := (toNat_of_isDigit h).2
  apply dif_neg
  rintro ⟨hupper, -⟩
  have hge : 65 ≤ c.toNat := UInt32.le_iff_toNat_le.mp hupper
  omega

theorem isWhiteSpace_of_isDigit {c : Char} (h : c.isDigit = true) : Text.isWhiteSpace c = false := by
  have hrange := toNat_of_isDigit h
  simp [Text.isWhiteSpace, Text.inRanges, Text.whiteSpace]
  omega

namespace Decimal

/-! ## Numerals -/

/-- Digits with at most one point, which stands after the first digit or later,
and the number that they write. -/
inductive Numeral : Decimal → List Char → Prop
  | whole {run : List Char} : run ≠ [] → (∀ c ∈ run, c.isDigit = true) → Numeral ⟨runValue run, 0⟩ run
  | point {run fraction : List Char} : run ≠ [] → (∀ c ∈ run ++ fraction, c.isDigit = true) →
      Numeral ⟨runValue (run ++ fraction), -fraction.length⟩ (run ++ '.' :: fraction)

namespace Numeral

variable {d : Decimal} {text : List Char}

theorem isDigit_or_point (h : Numeral d text) : ∀ c ∈ text, c.isDigit = true ∨ c = '.' := by
  intro c hc
  cases h with
  | whole _ hrun => exact .inl (hrun c hc)
  | point _ hrun =>
    rw [List.forall_mem_append] at hrun
    rcases List.mem_append.mp hc with hc | hc
    · exact .inl (hrun.1 c hc)
    · rcases List.mem_cons.mp hc with rfl | hc
      · exact .inr rfl
      · exact .inl (hrun.2 c hc)

theorem head (h : Numeral d text) : ∃ c rest, text = c :: rest ∧ c.isDigit = true := by
  cases h with
  | whole hne hrun =>
    obtain ⟨c, rest, rfl⟩ := List.exists_cons_of_ne_nil hne
    exact ⟨c, rest, rfl, hrun c List.mem_cons_self⟩
  | point hne hrun =>
    obtain ⟨c, rest, rfl⟩ := List.exists_cons_of_ne_nil hne
    exact ⟨c, _, rfl, hrun c (by simp)⟩

theorem ofChars?_eq_some (h : Numeral d text) : ofChars? text = some d := by
  cases h with
  | whole hne hrun =>
    have htake := List.takeWhile_eq_self_iff.mpr hrun
    have hdrop := List.dropWhile_eq_nil_iff.mpr hrun
    simp [ofChars?, htake, hdrop, hne, exponent?]
  | @point run fraction hne hrun =>
    rw [List.forall_mem_append] at hrun
    have hpoint : ('.' : Char).isDigit = false := by decide
    have htake : (run ++ '.' :: fraction).takeWhile Char.isDigit = run := by
      rw [List.takeWhile_append_of_pos hrun.1]
      simp [hpoint]
    have hdrop : (run ++ '.' :: fraction).dropWhile Char.isDigit = '.' :: fraction := by
      rw [List.dropWhile_append_of_pos hrun.1]
      simp [hpoint]
    have htake' := List.takeWhile_eq_self_iff.mpr hrun.2
    have hdrop' := List.dropWhile_eq_nil_iff.mpr hrun.2
    simp [ofChars?, htake, hdrop, htake', hdrop', hne, exponent?]

end Numeral

/-! ## The numeral of a number on the grid -/

theorem points_mul_ten_pow {d : Decimal} (h : d.OnGrid) (n : Nat) :
    points ⟨d.digits * 10 ^ n, d.exponent⟩ = points ⟨d.digits, d.exponent + n⟩ := by
  have hexponent : (d.exponent + n + 1074).toNat = n + (d.exponent + 1074).toNat := by
    unfold OnGrid at h
    omega
  simp only [points, hexponent, ten_pow_add, Nat.mul_assoc]

theorem runValue_toDigits_append_zeros (digits zeros : Nat) :
    runValue (Nat.toDigits 10 digits ++ List.replicate zeros '0') = digits * 10 ^ zeros := by
  rw [runValue, Nat.ofDigitChars_append, Nat.ofDigitChars_replicate_zero, Nat.ofDigitChars_ten_toDigits,
    Nat.mul_comm]

theorem runValue_zeros_append_toDigits (digits zeros : Nat) :
    runValue (List.replicate zeros '0' ++ Nat.toDigits 10 digits) = digits := by
  rw [runValue, Nat.ofDigitChars_append, Nat.ofDigitChars_replicate_zero, Nat.mul_zero,
    Nat.ofDigitChars_ten_toDigits]

theorem numeral_toDigits (n : Nat) : Numeral ⟨n, 0⟩ (Nat.toDigits 10 n) := by
  have h := Numeral.whole (Nat.toDigits_ne_nil (b := 10) (n := n)) fun _ hc => isDigit_of_mem_toDigits hc
  rwa [runValue, Nat.ofDigitChars_ten_toDigits] at h

theorem numeral_toChars_of_nonneg (digits zeros : Nat) :
    Numeral ⟨digits * 10 ^ zeros, 0⟩ (toChars ⟨digits, zeros⟩) := by
  have hdigit : ∀ c ∈ Nat.toDigits 10 digits ++ List.replicate zeros '0', c.isDigit = true :=
    List.forall_mem_append.mpr ⟨fun _ => isDigit_of_mem_toDigits, fun _ => isDigit_of_mem_replicate_zero⟩
  have h := Numeral.whole (List.append_ne_nil_of_left_ne_nil Nat.toDigits_ne_nil _) hdigit
  rwa [runValue_toDigits_append_zeros] at h

theorem numeral_toChars_of_neg (digits n : Nat) :
    Numeral ⟨digits, .negSucc n⟩ (toChars ⟨digits, .negSucc n⟩) := by
  let run := Nat.toDigits 10 digits
  let padded := List.replicate (n + 2 - run.length) '0' ++ run
  let whole := padded.length - (n + 1)
  have hlength : n + 2 ≤ padded.length := by
    simp only [padded, List.length_append, List.length_replicate]
    omega
  have hdigit : ∀ c ∈ padded, c.isDigit = true :=
    List.forall_mem_append.mpr ⟨fun _ => isDigit_of_mem_replicate_zero, fun _ => isDigit_of_mem_toDigits⟩
  have hne : padded.take whole ≠ [] := by
    apply List.ne_nil_of_length_pos
    rw [List.length_take]
    omega
  have hfraction : (padded.drop whole).length = n + 1 := by
    rw [List.length_drop]
    omega
  have h := Numeral.point hne (by rwa [List.take_append_drop] : ∀ c ∈ padded.take whole ++ padded.drop whole, c.isDigit = true)
  rwa [List.take_append_drop, hfraction, runValue_zeros_append_toDigits] at h

theorem numeral_toChars {d : Decimal} (h : d.OnGrid) :
    ∃ d', Numeral d' d.toChars ∧ d'.OnGrid ∧ d'.points = d.points := by
  obtain ⟨digits, zeros | n⟩ := d
  · have hgrid : ∀ n : Nat, OnGrid ⟨n, 0⟩ := fun _ => onGrid_of_le (by decide)
    have hpoints := points_mul_ten_pow (hgrid digits) zeros
    dsimp only at hpoints
    rw [Int.zero_add] at hpoints
    exact ⟨_, numeral_toChars_of_nonneg digits zeros, hgrid _, hpoints⟩
  · exact ⟨_, numeral_toChars_of_neg digits n, h, rfl⟩

theorem dropZeros_points {d : Decimal} (h : d.OnGrid) (n : Nat) :
    (d.dropZeros n).OnGrid ∧ (d.dropZeros n).points = d.points := by
  induction n generalizing d with
  | zero => exact ⟨h, rfl⟩
  | succ n ih =>
    unfold dropZeros
    split
    next hzero =>
      have hgrid : OnGrid ⟨d.digits / 10, d.exponent + 1⟩ := onGrid_of_le (Int.le_add_one h)
      have hpoints := points_mul_ten_pow (d := ⟨d.digits / 10, d.exponent⟩) h 1
      have hdigits : d.digits / 10 * 10 ^ 1 = d.digits := by omega
      dsimp only at hpoints
      rw [hdigits] at hpoints
      exact ⟨(ih hgrid).1, (ih hgrid).2.trans hpoints.symm⟩
    next => exact ⟨h, rfl⟩

end Decimal

namespace Binary64

/-! ## The digits of a double -/

/-- A number on the grid that rounds to this number of units. -/
def RoundsTo (units : Nat) (d : Decimal) : Prop :=
  d.OnGrid ∧ roundUnits d.points (5 ^ 1074) = units

theorem readsBack_of_nearestAt? {units place found : Nat} (h : nearestAt? units place = some found) :
    readsBack units found place = true := by
  unfold nearestAt? at h
  dsimp only at h
  split at h
  next hbelow habove =>
    rw [← Option.some.inj h]
    split
    · exact hbelow
    · exact habove
  next hbelow _ => rwa [← Option.some.inj h]
  next _ habove => rwa [← Option.some.inj h]
  next => cases h

theorem roundsTo_iff_readsBack {units digits place : Nat} :
    RoundsTo units ⟨digits, (place : Int) - 1074⟩ ↔ readsBack units digits place = true := by
  unfold RoundsTo readsBack
  rw [Decimal.points_sub, decide_eq_true_eq]
  exact and_iff_right (Decimal.onGrid_of_le (by omega))

theorem roundUnits_mul_five_pow {units : Nat} (h : ulp units ∣ units) :
    roundUnits (units * 5 ^ 1074) (5 ^ 1074) = units := by
  refine (roundUnits_congr Decimal.five_pow_pos Nat.one_pos ?_).trans (roundUnits_one h)
  rw [Nat.mul_one]

theorem roundsTo_gridPoints {units : Nat} (h : ulp units ∣ units) : RoundsTo units ⟨gridPoints units, -1074⟩ := by
  have hread : readsBack units (gridPoints units) 0 = true := by
    unfold readsBack gridPoints
    rw [decide_eq_true_eq, Nat.pow_zero, Nat.mul_one, Nat.mul_comm, roundUnits_mul_five_pow h]
  exact roundsTo_iff_readsBack.mpr hread

theorem roundsTo_whole {n : Nat} (h : ulp (n * unitsPerOne) ∣ n * unitsPerOne) : RoundsTo (n * unitsPerOne) ⟨n, 0⟩ := by
  refine ⟨Decimal.onGrid_of_le (by decide), ?_⟩
  have hpoints := Decimal.points_of_nonneg n 0
  rw [Nat.pow_zero, Nat.mul_one, Int.natCast_zero] at hpoints
  rw [hpoints, roundUnits_mul_five_pow h]

theorem shortestFrom_roundsTo {units : Nat} (h : ulp units ∣ units) (length digits more : Nat) :
    RoundsTo units (shortestFrom units length digits more) := by
  induction more generalizing digits with
  | zero =>
    unfold shortestFrom
    exact roundsTo_gridPoints h
  | succ more ih =>
    unfold shortestFrom
    split
    next found hfound => exact roundsTo_iff_readsBack.mpr (readsBack_of_nearestAt? hfound)
    next => exact ih (digits + 1)

theorem RoundsTo.dropZeros {units : Nat} {d : Decimal} (h : RoundsTo units d) (n : Nat) :
    RoundsTo units (d.dropZeros n) := by
  obtain ⟨hgrid, hpoints⟩ := Decimal.dropZeros_points h.1 n
  exact ⟨hgrid, hpoints ▸ h.2⟩

theorem RoundsTo.toBinary64_eq {units : Nat} {d : Decimal} (h : RoundsTo units d) (hr : Representable units)
    (negative : Bool) : d.toBinary64 negative = .finite negative units hr := by
  rw [Decimal.toBinary64_eq_round h.1, round_of_roundUnits h.2 hr]

theorem numeral_unitsToChars {units : Nat} (h : ulp units ∣ units) :
    ∃ d, Decimal.Numeral d (unitsToChars units) ∧ RoundsTo units d := by
  unfold unitsToChars
  split
  next hwhole =>
    rw [Bool.and_eq_true, decide_eq_true_eq] at hwhole
    have hunits : units / unitsPerOne * unitsPerOne = units :=
      Nat.div_mul_cancel (Nat.dvd_of_mod_eq_zero hwhole.1)
    refine ⟨_, Decimal.numeral_toDigits _, ?_⟩
    have hrounds := roundsTo_whole (n := units / unitsPerOne) (by rwa [hunits])
    rwa [hunits] at hrounds
  next =>
    -- dropping zeros and writing the number change neither its value nor its reading
    have hrounds : RoundsTo units (shortest units) := shortestFrom_roundsTo h _ _ _
    dsimp only
    generalize (Nat.toDigits 10 (shortest units).digits).length = zeros
    obtain ⟨hstripped, hread⟩ := hrounds.dropZeros zeros
    obtain ⟨d, hnumeral, hgrid, hpoints⟩ := Decimal.numeral_toChars hstripped
    rw [← hpoints] at hread
    exact ⟨d, hnumeral, hgrid, hread⟩

/-! ## Reading the text -/

section
variable {d : Decimal} {text : List Char}

theorem ofUnsignedChars?_of_numeral (h : d.Numeral text) (negative : Bool) :
    ofUnsignedChars? negative text = some (d.toBinary64 negative) := by
  obtain ⟨c, rest, rfl, hc⟩ := h.head
  have hn : c ≠ 'n' := ne_of_isDigit hc (by decide)
  have hi : c ≠ 'i' := ne_of_isDigit hc (by decide)
  simp [ofUnsignedChars?, toLower_of_isDigit hc, hn, hi, h.ofChars?_eq_some]

theorem ofChars?_of_numeral (h : d.Numeral text) : ofChars? text = some (d.toBinary64 false) := by
  obtain ⟨c, rest, rfl, hc⟩ := h.head
  have hplus : c ≠ '+' := ne_of_isDigit hc (by decide)
  have hminus : c ≠ '-' := ne_of_isDigit hc (by decide)
  rw [← ofUnsignedChars?_of_numeral h]
  unfold ofChars?
  split
  next heq => exact absurd (List.cons.inj heq).1 hplus
  next heq => exact absurd (List.cons.inj heq).1 hminus
  next => rfl

end

theorem ofChars?_toChars (a : Binary64) : ofChars? a.toChars = some a := by
  cases a with
  | nan => rfl
  | infinite negative => cases negative <;> rfl
  | finite negative units h =>
    obtain ⟨d, hnumeral, hrounds⟩ := numeral_unitsToChars h.2
    cases negative with
    | false =>
      have hread := ofChars?_of_numeral hnumeral
      rwa [hrounds.toBinary64_eq h] at hread
    | true =>
      have hread := ofUnsignedChars?_of_numeral hnumeral true
      rwa [hrounds.toBinary64_eq h] at hread

/-- A number is read back from its text, NaN as NaN. -/
theorem ofText?_toText (a : Binary64) : ofText? a.toText = some a := by
  rw [ofText?, toText, String.toList_ofList, ofChars?_toChars]

theorem unitsToChars_whole {n : Nat} (h : n < 2 ^ 53) : unitsToChars (n * unitsPerOne) = Nat.toDigits 10 n := by
  have hdiv : n * unitsPerOne / unitsPerOne = n := Nat.mul_div_cancel n unitsPerOne_pos
  have hwhole : (decide (n * unitsPerOne % unitsPerOne = 0) &&
      decide (n * unitsPerOne / unitsPerOne < 2 ^ 53)) = true := by
    rw [Bool.and_eq_true, decide_eq_true_eq, decide_eq_true_eq, hdiv]
    exact ⟨Nat.mul_mod_left _ _, h⟩
  rw [unitsToChars, if_pos hwhole, hdiv]

/-- A whole number that a double holds exactly is written by its own digits. -/
theorem toText_ofNat {n : Nat} (h : n ≤ maxExactInteger) : (ofNat n).toText = String.ofList (Nat.toDigits 10 n) := by
  have hsmall : n < 2 ^ 53 := by
    unfold maxExactInteger at h
    omega
  rw [ofNat_of_le h, toText, toChars, unitsToChars_whole hsmall]
  rfl

theorem any_isWhiteSpace_unitsToChars {units : Nat} (h : ulp units ∣ units) :
    (unitsToChars units).any Text.isWhiteSpace = false := by
  obtain ⟨d, hnumeral, -⟩ := numeral_unitsToChars h
  rw [List.any_eq_false]
  intro c hc
  rw [Bool.not_eq_true]
  rcases hnumeral.isDigit_or_point c hc with hdigit | rfl
  · exact isWhiteSpace_of_isDigit hdigit
  · decide

theorem any_isWhiteSpace_toChars (a : Binary64) : a.toChars.any Text.isWhiteSpace = false := by
  cases a with
  | nan => decide
  | infinite negative => cases negative <;> decide
  | finite negative units h =>
    rw [toChars, List.any_append, any_isWhiteSpace_unitsToChars h.2]
    cases negative <;> decide

end Binary64

end Calculator
