import Calculator.Proofs.Threshold

/-!
# Blanks between lexemes

Spaces and tabs put in anywhere but inside a number move the lexemes behind
them and change nothing else. So they move the errors behind them, and the trees
stay.
-/

namespace Calculator

/-- Where byte `p` comes to stand when `n` bytes are put in at byte `b`. -/
def displaced (b n p : Nat) : Nat := if p < b then p else p + n

namespace Lexeme

/-! ## Lexemes that move -/

def moved (n : Nat) (x : Lexeme) : Lexeme := { x with start := x.start + n, stop := x.stop + n }

/-- What becomes of a lexeme when `n` bytes are put in at byte `b`. -/
def displaced (b n : Nat) (x : Lexeme) : Lexeme := if x.start < b then x else x.moved n

section
variable {b n : Nat} {xs : List Lexeme}

theorem token_displaced (b n : Nat) (x : Lexeme) : (x.displaced b n).token = x.token := by
  unfold displaced
  split <;> rfl

theorem text_displaced (b n : Nat) (x : Lexeme) : (x.displaced b n).text = x.text := by
  unfold displaced
  split <;> rfl

theorem start_displaced (b n : Nat) (x : Lexeme) :
    (x.displaced b n).start = Calculator.displaced b n x.start := by
  unfold displaced Calculator.displaced
  split <;> rfl

theorem map_displaced_of_lt (h : ∀ x ∈ xs, x.start < b) : xs.map (displaced b n) = xs := by
  conv => rhs; rw [← List.map_id xs]
  exact List.map_congr_left fun x hx => if_pos (h x hx)

theorem map_displaced_of_le (h : ∀ x ∈ xs, b ≤ x.start) : xs.map (displaced b n) = xs.map (moved n) :=
  List.map_congr_left fun x hx => if_neg (Nat.not_lt.mpr (h x hx))

/-! ## The scanner -/

theorem scan_moved (n position : Nat) (chars : List Char) :
    scan (position + n) chars = ((scan position chars).1.moved n, (scan position chars).2) := by
  rcases exists_cuts chars with hblanks | ⟨blanks, text, rest, token, hblanks, hcuts, rfl⟩
  · rw [← List.append_nil chars, scan_blanks hblanks, scan_blanks hblanks, Nat.add_right_comm]
    rfl
  · rw [scan_blanks hblanks, scan_blanks hblanks, scan_cuts hcuts, scan_cuts hcuts]
    simp only [covering, moved]
    rw [Nat.add_right_comm position, Nat.add_right_comm _ n]

theorem scanAll_moved (n position : Nat) (chars : List Char) :
    scanAll (position + n) chars = (scanAll position chars).map (moved n) := by
  fun_induction scanAll position chars with
  | case1 position chars next h =>
    rw [scanAll, scan_moved]
    exact dif_pos h
  | case2 position chars next h ih =>
    rw [scanAll, scan_moved, List.map_cons, ← ih]
    exact dif_neg h

end

end Lexeme

open Lexeme

/-- Blanks move what is behind them. -/
theorem lexemes_insert_blanks {before blanks after : String} (hblanks : ∀ c ∈ blanks.toList, isBlank c = true)
    (h : Apart before.toList after.toList) :
    lexemes (before ++ blanks ++ after) =
      (lexemes (before ++ after)).map (Lexeme.displaced before.utf8ByteSize blanks.utf8ByteSize) := by
  -- the lexemes of `before` keep their places; its end of input is none of them
  have hfirst : ∀ x ∈ words before, x.start < before.utf8ByteSize := by
    have hspans := spans_lexemes before
    obtain ⟨y, hwords, _⟩ := lexemes_eq_concat before
    rw [hwords] at hspans
    exact hspans.start_lt (List.cons_ne_nil _ _)
  have hsecond := (spans_scanAll before.utf8ByteSize after.toList).le_start
  have hmore : Apart before.toList (blanks ++ after).toList := by
    rw [String.toList_append]
    exact h.append_blanks hblanks
  have hbytes : bytes blanks.toList = blanks.utf8ByteSize := by rw [bytes, String.ofList_toList]
  rw [String.append_assoc, lexemes_append hmore, lexemes_append h, List.map_append,
    map_displaced_of_lt hfirst, map_displaced_of_le hsecond, String.toList_append, scanAll_blanks hblanks,
    hbytes, scanAll_moved]

namespace Parse

/-! ## The parser -/

def Error.displaced (b n : Nat) (e : Error) : Error := ⟨Calculator.displaced b n e.position, e.cause⟩

section
variable {b n limit : Nat} {lenient : Bool} {g : Grouping} {source source' : String} {o : Options}
  {start rest : List Lexeme} {t : Expr}

theorem classify_displaced (b n : Nat) (x : Lexeme) (phase : Phase) (opened : Nat) :
    classify lenient (x.displaced b n) phase opened = classify lenient x phase opened := by
  unfold classify magnitude
  rw [token_displaced, text_displaced]

theorem crowded_displaced (b n : Nat) (x : Lexeme) (phase : Phase) (groups : List Group) :
    crowded limit groups (x.displaced b n) phase = crowded limit groups x phase := by
  unfold crowded
  rw [token_displaced]

theorem scanWithin_displaced (b n : Nat) (phase : Phase) (g : Group) (outer : List Group) (xs : List Lexeme) :
    scanWithin limit lenient phase g outer (xs.map (Lexeme.displaced b n)) =
      match scanWithin limit lenient phase g outer xs with
      | .ok rest => .ok (rest.map (Lexeme.displaced b n))
      | .error e => .error (e.displaced b n) := by
  induction xs generalizing phase g outer with
  | nil => rfl
  | cons x xs ih =>
    rw [List.map_cons, scanWithin, scanWithin, crowded_displaced, classify_displaced, start_displaced]
    by_cases hc : crowded limit (g :: outer) x phase = true
    · simp only [hc, ite_true]
      rfl
    · simp only [hc, Bool.false_eq_true, ite_false]
      cases classify lenient x phase outer.length with
      | error cause => rfl
      | ok move => cases move <;> first | exact ih _ _ _ | rfl

theorem Phrase.displaced {l : Level} (h : Phrase g l start t rest) (b n : Nat) :
    Phrase g l (start.map (Lexeme.displaced b n)) t (rest.map (Lexeme.displaced b n)) := by
  obtain ⟨xs, rfl, hderives, hexact⟩ := h
  refine ⟨xs.map (Lexeme.displaced b n), List.map_append, ?_, ?_⟩
  · rw [List.map_map, Function.comp_def]
    simpa only [token_displaced] using hderives
  · intro y hy v hv
    obtain ⟨x, hx, rfl⟩ := List.mem_map.mp hy
    rw [token_displaced] at hv
    exact hexact x hx v hv

theorem parse_displaced (h : lexemes source' = (lexemes source).map (Lexeme.displaced b n)) (o : Options) :
    parse source' o = (parse source o).mapError (Error.displaced b n) := by
  cases hp : parse source o with
  | error e =>
    refine parse_eq_error_of_scanWithin ?_
    rw [h, scanWithin_displaced, scanWithin_of_parse_eq_error hp]
  | ok t =>
    obtain ⟨rest, hrest, ht⟩ := phrase_of_parse_eq_ok hp
    have ht' := ht.displaced b n
    rw [← h] at ht'
    refine parse_eq_ok_of_phrase ?_ ht'
    rw [h, scanWithin_displaced, hrest]

/-- Blanks that cut no number in two leave the tree as it is, and an error moves with its place. -/
theorem parse_insert_blanks (before blanks after : String) (o : Options)
    (hblanks : ∀ c ∈ blanks.toList, isBlank c = true) (h : Apart before.toList after.toList) :
    match parse (before ++ after) o with
    | .ok t => parse (before ++ blanks ++ after) o = .ok t
    | .error ⟨p, cause⟩ => parse (before ++ blanks ++ after) o =
        .error ⟨if p < before.utf8ByteSize then p else p + blanks.utf8ByteSize, cause⟩ := by
  rw [parse_displaced (lexemes_insert_blanks hblanks h) o]
  cases parse (before ++ after) o <;> rfl

theorem parse_insert_blanks_unclosed :
    (∀ c ∈ "\t ".toList, isBlank c = true) ∧ Apart "(1".toList " 2".toList ∧
      parse ("(1" ++ "\t " ++ " 2") = .error ⟨5, .expectedClosingParen⟩ := by
  have hblanks : ∀ c ∈ "\t ".toList, isBlank c = true := by simp [isBlank]
  have h : Apart "(1".toList " 2".toList := by simp [Apart]
  have hparse : parse ("(1" ++ " 2") = .error ⟨3, .expectedClosingParen⟩ := by decide +kernel
  have hmoved := parse_insert_blanks "(1" "\t " " 2" {} hblanks h
  rw [hparse] at hmoved
  exact ⟨hblanks, h, hmoved⟩

end

end Parse

end Calculator
