import Calculator.Lexeme
import Calculator.Proofs.ExactInteger

/-!
# What every list of lexemes is like

The end of input stands last and nowhere else, and the value of a number tells
whether its digits wrote more than a double holds exactly.
-/

namespace Calculator

namespace Lexeme

/-- The number that the digits write, without rounding. -/
def magnitude (x : Lexeme) : Nat := Decimal.runValue x.text.toList

/-- The rounded value of a number is exact just when its digits are small enough. -/
def Faithful (x : Lexeme) : Prop :=
  ∀ v, x.token = .number v → (v.isExactInteger = true ↔ x.magnitude ≤ Binary64.maxExactInteger)

/-- Neither an illegal character nor a number beyond the exact integers. -/
def Readable (x : Lexeme) : Prop :=
  (∀ character, x.token ≠ .illegal character) ∧
    ∀ v, x.token = .number v → x.magnitude ≤ Binary64.maxExactInteger

/-- Lexemes up to the end of input, which comes once. -/
inductive Stream : List Lexeme → Prop
  | last {x : Lexeme} : x.token = .endOfInput → Stream [x]
  | cons {x : Lexeme} {xs : List Lexeme} :
      x.token ≠ .endOfInput → x.Faithful → Stream xs → Stream (x :: xs)

namespace Stream
variable {x : Lexeme} {xs : List Lexeme}

theorem exists_cons (h : Stream xs) : ∃ y ys, xs = y :: ys := by
  cases h with
  | last _ => exact ⟨_, _, rfl⟩
  | cons _ _ _ => exact ⟨_, _, rfl⟩

theorem tail (h : Stream (x :: xs)) (hx : x.token ≠ .endOfInput) : Stream xs := by
  cases h with
  | last he => exact absurd he hx
  | cons _ _ ht => exact ht

theorem tail_eq_nil (h : Stream (x :: xs)) (hx : x.token = .endOfInput) : xs = [] := by
  cases h with
  | last _ => rfl
  | cons hne _ _ => exact absurd hx hne

theorem of_append {ys : List Lexeme} (h : Stream (xs ++ ys)) (hne : ys ≠ []) : Stream ys := by
  induction xs with
  | nil => exact h
  | cons x xs ih =>
    by_cases hx : x.token = .endOfInput
    · exact absurd (List.append_eq_nil_iff.mp (h.tail_eq_nil hx)).2 hne
    · exact ih (h.tail hx)

theorem ne_endOfInput {ys : List Lexeme} (h : Stream (xs ++ ys)) (hys : ys ≠ []) :
    ∀ x ∈ xs, x.token ≠ .endOfInput := by
  induction xs with
  | nil => exact List.forall_mem_nil _
  | cons x xs ih =>
    have hx : x.token ≠ .endOfInput := by
      intro hend
      exact hys (List.append_eq_nil_iff.mp (h.tail_eq_nil hend)).2
    exact List.forall_mem_cons.mpr ⟨hx, ih (h.tail hx)⟩

theorem faithful (h : Stream (x :: xs)) : x.Faithful := by
  cases h with
  | last he => exact fun v hv => by rw [he] at hv; cases hv
  | cons _ hf _ => exact hf

theorem eq_concat (h : Stream xs) :
    ∃ ys y, xs = ys ++ [y] ∧ y.token = .endOfInput ∧ ∀ x ∈ ys, x.Faithful := by
  induction h with
  | @last x hx => exact ⟨[], x, rfl, hx, fun _ hy => nomatch hy⟩
  | @cons x xs _ hf _ ih =>
    obtain ⟨ys, y, rfl, hy, hys⟩ := ih
    exact ⟨x :: ys, y, rfl, hy, List.forall_mem_cons.mpr ⟨hf, hys⟩⟩

end Stream

/-! ## The scanner -/

theorem tokenOf_ne_endOfInput (c : Char) : tokenOf c ≠ .endOfInput := by
  unfold tokenOf
  repeat' split
  all_goals exact nofun

theorem tokenOf_ne_number (c : Char) (v : Binary64) : tokenOf c ≠ .number v := by
  unfold tokenOf
  repeat' split
  all_goals exact nofun

theorem magnitude_ofDigits (position : Nat) (run : List Char) :
    (ofDigits position run).magnitude = Decimal.runValue run := by
  rw [magnitude, ofDigits, String.toList_ofList]

theorem faithful_ofDigits (position : Nat) (run : List Char) : (ofDigits position run).Faithful := by
  intro v hv
  have hval : Binary64.ofNat (Decimal.runValue run) = v := Token.number.inj hv
  rw [← hval, magnitude_ofDigits]
  exact Binary64.isExactInteger_ofNat

theorem faithful_scan (position : Nat) (chars : List Char) : (scan position chars).1.Faithful := by
  induction chars generalizing position with
  | nil => exact fun v hv => by cases hv
  | cons c rest ih =>
    unfold scan
    split
    · exact ih _
    · split
      · exact faithful_ofDigits _ _
      · exact fun v hv => absurd hv (tokenOf_ne_number c v)

theorem stream_scanAll (position : Nat) (chars : List Char) : Stream (scanAll position chars) := by
  fun_induction scanAll position chars with
  | case1 position chars next h => exact .last h
  | case2 position chars next h ih => exact .cons h (faithful_scan position chars) ih

end Lexeme

theorem stream_lexemes (source : String) : Lexeme.Stream (lexemes source) :=
  Lexeme.stream_scanAll 0 source.toList

/-- The lexemes of a source but for the end of input. -/
def words (source : String) : List Lexeme := (lexemes source).dropLast

theorem lexemes_eq_concat (source : String) :
    ∃ y, lexemes source = words source ++ [y] ∧ y.token = .endOfInput ∧ ∀ x ∈ words source, x.Faithful := by
  obtain ⟨ys, y, heq, hy, hys⟩ := (stream_lexemes source).eq_concat
  have hwords : words source = ys := by rw [words, heq, List.dropLast_concat]
  rw [hwords]
  exact ⟨y, heq, hy, hys⟩

end Calculator
