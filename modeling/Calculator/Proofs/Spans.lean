import Calculator.Proofs.Cuts

/-!
# Where lexemes stand

The lexemes of a source stand one behind the other, from its first byte to the
end of input at its last. Those in between are not empty, so a source has no
more of them than bytes.
-/

namespace Calculator

namespace Lexeme

/-! ## Spans -/

/-- Lexemes from byte `position` on, up to an end of input at byte `finish`. -/
inductive Spans (finish : Nat) : (position : Nat) → List Lexeme → Prop
  | last {position : Nat} : position ≤ finish → Spans finish position [endAt finish]
  | cons {position : Nat} {x : Lexeme} {xs : List Lexeme} :
      position ≤ x.start → x.start < x.stop → Spans finish x.stop xs → Spans finish position (x :: xs)

namespace Spans
variable {finish position : Nat} {xs ys : List Lexeme}

theorem le_start (h : Spans finish position xs) : ∀ y ∈ xs, position ≤ y.start := by
  induction h with
  | last hle => exact List.forall_mem_singleton.mpr hle
  | cons hle hx _ ih =>
    refine List.forall_mem_cons.mpr ⟨hle, fun y hy => ?_⟩
    have := ih y hy
    omega

theorem pairwise (h : Spans finish position xs) : xs.Pairwise fun x y => x.start ≤ y.start := by
  induction h with
  | last _ => exact List.pairwise_singleton _ _
  | cons _ hx hxs ih =>
    refine List.pairwise_cons.mpr ⟨fun y hy => ?_, ih⟩
    have := hxs.le_start y hy
    omega

theorem eq_of_start_eq (h : Spans finish position xs) : ∀ x ∈ xs, ∀ y ∈ xs, x.start = y.start → x = y := by
  induction h with
  | last _ =>
    intro x hx y hy _
    rw [List.mem_singleton.mp hx, List.mem_singleton.mp hy]
  | @cons position z zs _ hz hzs ih =>
    have hbehind : ∀ y ∈ zs, z.start < y.start := fun y hy => Nat.lt_of_lt_of_le hz (hzs.le_start y hy)
    intro x hx y hy heq
    rcases List.mem_cons.mp hx with hx | hx <;> rcases List.mem_cons.mp hy with hy | hy
    · rw [hx, hy]
    · exact absurd (hx ▸ heq) (Nat.ne_of_lt (hbehind y hy))
    · exact absurd (hy ▸ heq.symm) (Nat.ne_of_lt (hbehind x hx))
    · exact ih x hx y hy heq

theorem position_le (h : Spans finish position xs) : position ≤ finish := by
  induction h with
  | last hle => exact hle
  | cons hle hx _ ih => omega

theorem start_lt (h : Spans finish position (xs ++ ys)) (hys : ys ≠ []) :
    ∀ x ∈ xs, x.start < finish := by
  induction xs generalizing position with
  | nil => exact List.forall_mem_nil _
  | cons x xs ih =>
    rw [List.cons_append] at h
    generalize hrest : xs ++ ys = rest at h
    cases h with
    | last _ => exact absurd (List.append_eq_nil_iff.mp hrest).2 hys
    | cons _ hx hxs =>
      have := hxs.position_le
      rw [← hrest] at hxs
      exact List.forall_mem_cons.mpr ⟨by omega, ih hxs⟩

theorem length_le (h : Spans finish position xs) : position + xs.length ≤ finish + 1 := by
  induction h with
  | last hle => exact Nat.succ_le_succ hle
  | cons hle hx _ ih =>
    rw [List.length_cons]
    omega

end Spans

/-! ## The scanner -/

/-- What a scan takes is behind `position`, and its lexeme stops where the rest begins. -/
theorem scan_extent (position : Nat) (chars : List Char) :
    (scan position chars).1 = endAt (position + bytes chars) ∨
    ((scan position chars).1.token ≠ .endOfInput ∧ position ≤ (scan position chars).1.start ∧
      (scan position chars).1.start < (scan position chars).1.stop ∧
      (scan position chars).1.stop + bytes (scan position chars).2 = position + bytes chars) := by
  rcases exists_cuts chars with hblanks | ⟨blanks, text, rest, token, hblanks, hcuts, rfl⟩
  · have hscan := scan_blanks hblanks position []
    rw [List.append_nil] at hscan
    rw [hscan]
    exact .inl rfl
  · rw [scan_blanks hblanks, scan_cuts hcuts]
    refine .inr ⟨hcuts.ne_endOfInput, Nat.le_add_right _ _, Nat.lt_add_of_pos_right hcuts.bytes_pos, ?_⟩
    rw [covering, bytes_append, bytes_append]
    dsimp only
    omega

theorem spans_scanAll (position : Nat) (chars : List Char) :
    Spans (position + bytes chars) position (scanAll position chars) := by
  fun_induction scanAll position chars with
  | case1 position chars next h =>
    rcases scan_extent position chars with hend | ⟨hne, _⟩
    · rw [show next.1 = endAt (position + bytes chars) from hend]
      exact .last (Nat.le_add_right _ _)
    · exact absurd h hne
  | case2 position chars next h ih =>
    rcases scan_extent position chars with hend | ⟨_, hstart, hstop, hrest⟩
    · exact absurd (congrArg token hend) h
    · rw [show next.1.stop + bytes next.2 = position + bytes chars from hrest] at ih
      exact .cons hstart hstop ih

end Lexeme

theorem spans_lexemes (source : String) : Lexeme.Spans source.utf8ByteSize 0 (lexemes source) := by
  have h := Lexeme.spans_scanAll 0 source.toList
  rwa [Nat.zero_add, Lexeme.bytes, String.ofList_toList] at h

end Calculator
