import Calculator.Parse.Cursor
import Calculator.Proofs.LexemeStream
import Calculator.Proofs.ReferenceGrammar

/-!
# One pass over the lexemes

`classify` says what one lexeme does where an operand or an operator belongs.
`scan` goes by it from left to right and counts the open parentheses.
`scanWithin` counts in addition how many levels the productions would have open
at each operand, and stops where they exceed a limit. Where that limit is kept,
the two agree (`scan_of_scanWithin_ok`, `scan_of_scanWithin_error`).
-/

namespace Calculator

def Token.isIllegal : Token → Bool
  | illegal _ => true
  | _ => false

namespace Parse

/-! ## One lexeme -/

inductive Phase where
  | operand | operator
  deriving DecidableEq

inductive Move where
  | literal | sign | opening
  | operator (op : BinaryOp)
  | closing | finish

def classify (lenient : Bool) (x : Lexeme) : Phase → (opened : Nat) → Except Cause Move
  | .operand, _ =>
    match x.token with
    | .illegal character => .error (.illegalCharacter character)
    | .number _ =>
      if x.magnitude ≤ Binary64.maxExactInteger then .ok .literal
      else .error (.literalTooLarge x.text)
    | .openParen => .ok .opening
    | .plus | .minus => .ok .sign
    | .endOfInput => .error .unexpectedEndOfInput
    | token => .error (.unexpectedToken token.describe)
  | .operator, opened =>
    match x.token, x.token.binaryOp? with
    | .illegal character, _ => .error (.illegalCharacter character)
    | _, some op => .ok (.operator op)
    | token, none =>
      if 0 < opened then
        if token = .closeParen then .ok .closing else .error .expectedClosingParen
      else if token = .endOfInput || lenient then .ok .finish
      else .error (.unexpectedTrailingTokens token.describe)

-- where the token is a constructor, `classify` computes

section
variable {lenient : Bool} {opened : Nat} {x : Lexeme}

theorem classify_illegal {character : Char} (hx : x.token = .illegal character) (phase : Phase) :
    classify lenient x phase opened = .error (.illegalCharacter character) := by
  obtain ⟨token, text, start, stop⟩ := x
  cases hx
  cases phase <;> rfl

theorem classify_number {v : Binary64} (hx : x.token = .number v) (hm : x.magnitude ≤ Binary64.maxExactInteger) :
    classify lenient x .operand opened = .ok .literal := by
  obtain ⟨token, text, start, stop⟩ := x
  cases hx
  exact if_pos hm

theorem classify_literalTooLarge {v : Binary64} (hx : x.token = .number v)
    (hm : ¬ x.magnitude ≤ Binary64.maxExactInteger) :
    classify lenient x .operand opened = .error (.literalTooLarge x.text) := by
  obtain ⟨token, text, start, stop⟩ := x
  cases hx
  exact if_neg hm

theorem classify_openParen (hx : x.token = .openParen) : classify lenient x .operand opened = .ok .opening := by
  obtain ⟨token, text, start, stop⟩ := x
  cases hx
  rfl

theorem classify_sign {s : Sign} (hx : x.token.sign? = some s) :
    classify lenient x .operand opened = .ok .sign := by
  obtain ⟨token, text, start, stop⟩ := x
  cases token with
  | plus | minus => rfl
  | _ => cases hx

theorem classify_endOfInput (hx : x.token = .endOfInput) :
    classify lenient x .operand opened = .error .unexpectedEndOfInput := by
  obtain ⟨token, text, start, stop⟩ := x
  cases hx
  rfl

theorem classify_unexpected {y : Token} (hx : x.token = y) (hy : y = .star ∨ y = .slash ∨ y = .closeParen) :
    classify lenient x .operand opened = .error (.unexpectedToken y.describe) := by
  obtain ⟨token, text, start, stop⟩ := x
  cases hx
  rcases hy with rfl | rfl | rfl <;> rfl

theorem classify_operator {op : BinaryOp} (hx : x.token.binaryOp? = some op) :
    classify lenient x .operator opened = .ok (.operator op) := by
  obtain ⟨token, text, start, stop⟩ := x
  cases token with
  | plus | minus | star | slash => cases hx; rfl
  | _ => cases hx

theorem classify_end (hx : x.token = .endOfInput) : classify lenient x .operator 0 = .ok .finish := by
  obtain ⟨token, text, start, stop⟩ := x
  cases hx
  rfl

theorem classify_closeParen (hx : x.token = .closeParen) :
    classify lenient x .operator (opened + 1) = .ok .closing := by
  obtain ⟨token, text, start, stop⟩ := x
  cases hx
  rfl

section
variable (hlegal : ∀ character, x.token ≠ .illegal character) (hop : x.token.binaryOp? = none)
include hlegal hop

theorem classify_unclosed (hx : x.token ≠ .closeParen) :
    classify lenient x .operator (opened + 1) = .error .expectedClosingParen := by
  obtain ⟨token, text, start, stop⟩ := x
  cases token with
  | plus | minus | star | slash => cases hop
  | illegal character => exact absurd rfl (hlegal character)
  | closeParen => exact absurd rfl hx
  | openParen | number | endOfInput => rfl

theorem classify_finish (hx : lenient = true ∨ x.token = .endOfInput) :
    classify lenient x .operator 0 = .ok .finish := by
  obtain ⟨token, text, start, stop⟩ := x
  cases token with
  | plus | minus | star | slash => cases hop
  | illegal character => exact absurd rfl (hlegal character)
  | endOfInput => rfl
  | openParen | closeParen | number =>
    obtain rfl := hx.resolve_right nofun
    rfl

theorem classify_trailing (hx : x.token ≠ .endOfInput) :
    classify false x .operator 0 = .error (.unexpectedTrailingTokens x.token.describe) := by
  obtain ⟨token, text, start, stop⟩ := x
  cases token with
  | plus | minus | star | slash => cases hop
  | illegal character => exact absurd rfl (hlegal character)
  | endOfInput => exact absurd rfl hx
  | openParen | closeParen | number => rfl

end

end

def scan (lenient : Bool) : Phase → (opened : Nat) → List Lexeme → Except Error Unit
  | _, _, [] => .ok ()
  | phase, opened, x :: xs =>
    match classify lenient x phase opened with
    | .error cause => .error ⟨x.start, cause⟩
    | .ok .literal => scan lenient .operator opened xs
    | .ok .sign => scan lenient .operand opened xs
    | .ok .opening => scan lenient .operand (opened + 1) xs
    | .ok (.operator _) => scan lenient .operand opened xs
    | .ok .closing => scan lenient .operator (opened - 1) xs
    | .ok .finish => .ok ()

theorem scan_cons (lenient : Bool) (phase : Phase) (opened : Nat) (x : Lexeme) (xs : List Lexeme) :
    scan lenient phase opened (x :: xs) =
      match classify lenient x phase opened with
      | .error cause => .error ⟨x.start, cause⟩
      | .ok .literal => scan lenient .operator opened xs
      | .ok .sign => scan lenient .operand opened xs
      | .ok .opening => scan lenient .operand (opened + 1) xs
      | .ok (.operator _) => scan lenient .operand opened xs
      | .ok .closing => scan lenient .operator (opened - 1) xs
      | .ok .finish => .ok () := rfl

/-! ## Levels -/

/-- What was read directly in an open group: its additive operators, the
multiplicative ones since the last of them, and the signs just read. -/
structure Group where
  additive : Nat
  multiplicative : Nat
  signs : Nat

namespace Group

def fresh : Group := ⟨0, 0, 0⟩

/-- The levels of an operand in the group: one for each production, operator and sign. -/
def levels (g : Group) : Nat := 3 + g.additive + g.multiplicative + g.signs

def addSign (g : Group) : Group := { g with signs := g.signs + 1 }

def addOperator (g : Group) (op : BinaryOp) : Group :=
  if op.isAdditive then ⟨g.additive + 1, 0, 0⟩ else ⟨g.additive, g.multiplicative + 1, 0⟩

end Group

def levels : List Group → Nat
  | [] => 0
  | g :: groups => g.levels + levels groups

@[simp] theorem levels_cons (g : Group) (groups : List Group) :
    levels (g :: groups) = g.levels + levels groups := rfl

/-- Does an operand that starts with `x` lie deeper than `limit`? An illegal
character is no operand. -/
def crowded (limit : Nat) (groups : List Group) (x : Lexeme) : Phase → Bool
  | .operand => !x.token.isIllegal && limit < levels groups
  | .operator => false

/-- Like `scan`, with the innermost open group and those around it in place of
their number. It returns what it leaves unread. -/
def scanWithin (limit : Nat) (lenient : Bool) :
    Phase → Group → (outer : List Group) → List Lexeme → Except Error (List Lexeme)
  | _, _, _, [] => .ok []
  | phase, g, outer, x :: xs =>
    if crowded limit (g :: outer) x phase then .error ⟨x.start, .nestingTooDeep limit⟩
    else
      match classify lenient x phase outer.length with
      | .error cause => .error ⟨x.start, cause⟩
      | .ok .literal => scanWithin limit lenient .operator g outer xs
      | .ok .sign => scanWithin limit lenient .operand g.addSign outer xs
      | .ok .opening => scanWithin limit lenient .operand .fresh (g :: outer) xs
      | .ok (.operator op) => scanWithin limit lenient .operand (g.addOperator op) outer xs
      | .ok .closing => scanWithin limit lenient .operator (outer.headD g) outer.tail xs
      | .ok .finish => .ok (x :: xs)

/-! ## Single steps -/

section
variable {limit : Nat} {lenient : Bool} {phase : Phase} {g : Group} {outer : List Group} {x : Lexeme}
  {xs : List Lexeme}

theorem crowded_of_le {groups : List Group} (hl : levels groups ≤ limit) (phase : Phase) :
    crowded limit groups x phase = false := by
  cases phase <;> simp [crowded, Nat.not_lt.mpr hl]

theorem crowded_illegal {character : Char} (hx : x.token = .illegal character) (groups : List Group) (phase : Phase) :
    crowded limit groups x phase = false := by
  cases phase <;> simp [crowded, hx, Token.isIllegal]

theorem scanWithin_crowded (hc : crowded limit (g :: outer) x phase = true) :
    scanWithin limit lenient phase g outer (x :: xs) = .error ⟨x.start, .nestingTooDeep limit⟩ :=
  if_pos hc

theorem scanWithin_uncrowded (hc : crowded limit (g :: outer) x phase = false) :
    scanWithin limit lenient phase g outer (x :: xs) =
      match classify lenient x phase outer.length with
      | .error cause => .error ⟨x.start, cause⟩
      | .ok .literal => scanWithin limit lenient .operator g outer xs
      | .ok .sign => scanWithin limit lenient .operand g.addSign outer xs
      | .ok .opening => scanWithin limit lenient .operand .fresh (g :: outer) xs
      | .ok (.operator op) => scanWithin limit lenient .operand (g.addOperator op) outer xs
      | .ok .closing => scanWithin limit lenient .operator (outer.headD g) outer.tail xs
      | .ok .finish => .ok (x :: xs) :=
  if_neg (Bool.eq_false_iff.mp hc)

theorem scanWithin_illegal {character : Char} (hx : x.token = .illegal character) (phase : Phase) :
    scanWithin limit lenient phase g outer (x :: xs) = .error ⟨x.start, .illegalCharacter character⟩ := by
  rw [scanWithin_uncrowded (crowded_illegal hx _ phase), classify_illegal hx]

theorem scanWithin_tooDeep (hx : ∀ character, x.token ≠ .illegal character) (hl : limit < levels (g :: outer)) :
    scanWithin limit lenient .operand g outer (x :: xs) = .error ⟨x.start, .nestingTooDeep limit⟩ := by
  have hlegal : x.token.isIllegal = false := by
    cases ht : x.token with
    | illegal character => exact absurd ht (hx character)
    | _ => rfl
  have hc : crowded limit (g :: outer) x .operand = true := by
    rw [crowded, hlegal, decide_eq_true hl]
    rfl
  exact scanWithin_crowded hc

section
variable (hl : levels (g :: outer) ≤ limit)
include hl

theorem scanWithin_number {v : Binary64} (hx : x.token = .number v)
    (hm : x.magnitude ≤ Binary64.maxExactInteger) :
    scanWithin limit lenient .operand g outer (x :: xs) = scanWithin limit lenient .operator g outer xs := by
  rw [scanWithin_uncrowded (crowded_of_le hl _), classify_number hx hm]

theorem scanWithin_literalTooLarge {v : Binary64} (hx : x.token = .number v)
    (hm : ¬ x.magnitude ≤ Binary64.maxExactInteger) :
    scanWithin limit lenient .operand g outer (x :: xs) = .error ⟨x.start, .literalTooLarge x.text⟩ := by
  rw [scanWithin_uncrowded (crowded_of_le hl _), classify_literalTooLarge hx hm]

theorem scanWithin_openParen (hx : x.token = .openParen) :
    scanWithin limit lenient .operand g outer (x :: xs) =
      scanWithin limit lenient .operand .fresh (g :: outer) xs := by
  rw [scanWithin_uncrowded (crowded_of_le hl _), classify_openParen hx]

theorem scanWithin_sign {s : Sign} (hx : x.token.sign? = some s) :
    scanWithin limit lenient .operand g outer (x :: xs) = scanWithin limit lenient .operand g.addSign outer xs := by
  rw [scanWithin_uncrowded (crowded_of_le hl _), classify_sign hx]

theorem scanWithin_endOfInput (hx : x.token = .endOfInput) :
    scanWithin limit lenient .operand g outer (x :: xs) = .error ⟨x.start, .unexpectedEndOfInput⟩ := by
  rw [scanWithin_uncrowded (crowded_of_le hl _), classify_endOfInput hx]

theorem scanWithin_unexpected {y : Token} (hx : x.token = y) (hy : y = .star ∨ y = .slash ∨ y = .closeParen) :
    scanWithin limit lenient .operand g outer (x :: xs) = .error ⟨x.start, .unexpectedToken y.describe⟩ := by
  rw [scanWithin_uncrowded (crowded_of_le hl _), classify_unexpected hx hy]

end

-- where an operator belongs, nothing is crowded: `crowded` is `false` by definition

theorem scanWithin_operator {op : BinaryOp} (hx : x.token.binaryOp? = some op) :
    scanWithin limit lenient .operator g outer (x :: xs) =
      scanWithin limit lenient .operand (g.addOperator op) outer xs := by
  rw [scanWithin_uncrowded rfl, classify_operator hx]

theorem scanWithin_closeParen {h : Group} (hx : x.token = .closeParen) :
    scanWithin limit lenient .operator g (h :: outer) (x :: xs) =
      scanWithin limit lenient .operator h outer xs := by
  rw [scanWithin_uncrowded rfl, List.length_cons, classify_closeParen hx]
  rfl

section
variable (hlegal : ∀ character, x.token ≠ .illegal character) (hop : x.token.binaryOp? = none)
include hlegal hop

theorem scanWithin_unclosed {h : Group} (hx : x.token ≠ .closeParen) :
    scanWithin limit lenient .operator g (h :: outer) (x :: xs) =
      .error ⟨x.start, .expectedClosingParen⟩ := by
  rw [scanWithin_uncrowded rfl, List.length_cons, classify_unclosed hlegal hop hx]

theorem scanWithin_finish (hx : lenient = true ∨ x.token = .endOfInput) :
    scanWithin limit lenient .operator g [] (x :: xs) = .ok (x :: xs) := by
  rw [scanWithin_uncrowded rfl, List.length_nil, classify_finish hlegal hop hx]

theorem scanWithin_trailing (hx : x.token ≠ .endOfInput) :
    scanWithin limit false .operator g [] (x :: xs) =
      .error ⟨x.start, .unexpectedTrailingTokens x.token.describe⟩ := by
  rw [scanWithin_uncrowded rfl, List.length_nil, classify_trailing hlegal hop hx]

end

end

/-! ## The two scans agree -/

section
variable {limit : Nat} {lenient : Bool} {phase : Phase} {g : Group} {outer : List Group}
  {xs rest : List Lexeme} {e : Error}

theorem scan_of_scanWithin_ok (h : scanWithin limit lenient phase g outer xs = .ok rest) :
    scan lenient phase outer.length xs = .ok () := by
  induction xs generalizing phase g outer with
  | nil => rfl
  | cons x xs ih =>
    cases hc : crowded limit (g :: outer) x phase with
    | true => cases (scanWithin_crowded hc).symm.trans h
    | false =>
      rw [scanWithin_uncrowded hc] at h
      rw [scan_cons]
      cases hm : classify lenient x phase outer.length with
      | error cause => rw [hm] at h; cases h
      | ok move =>
        rw [hm] at h
        cases move with
        | literal => exact ih h
        | sign => exact ih h
        | opening => exact ih h
        | operator op => exact ih h
        | closing => rw [← List.length_tail]; exact ih h
        | finish => rfl

theorem scan_of_scanWithin_error (h : scanWithin limit lenient phase g outer xs = .error e)
    (he : ∀ n, e.cause ≠ .nestingTooDeep n) : scan lenient phase outer.length xs = .error e := by
  induction xs generalizing phase g outer with
  | nil => cases h
  | cons x xs ih =>
    cases hc : crowded limit (g :: outer) x phase with
    | true =>
      cases (scanWithin_crowded hc).symm.trans h
      exact absurd rfl (he limit)
    | false =>
      rw [scanWithin_uncrowded hc] at h
      rw [scan_cons]
      cases hm : classify lenient x phase outer.length with
      | error cause => rw [hm] at h; cases h; rfl
      | ok move =>
        rw [hm] at h
        cases move with
        | literal => exact ih h
        | sign => exact ih h
        | opening => exact ih h
        | operator op => exact ih h
        | closing => rw [← List.length_tail]; exact ih h
        | finish => cases h

end

end Parse

end Calculator
