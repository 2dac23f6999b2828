import Calculator.Proofs.Language
import Calculator.Proofs.Spelling
import Calculator.Proofs.Threshold

/-!
# Errors at the first impossible place

An error stands where the source goes wrong for the first time. The text before
it is the beginning of some expression (`Viable`): an operand and the closing
parentheses that are due complete it. With the lexeme at the error it is so no
more, whatever follows (`Hopeless`), digits included that lengthen the lexeme.
-/

namespace Calculator

namespace Lexeme

/-! ## The lexemes up to a place -/

/-- `x` comes first in the characters from byte `position` on, with no blank before it. -/
inductive Heads : (x : Lexeme) → (position : Nat) → List Char → Prop
  | finish {position : Nat} : Heads (endAt position) position []
  | cut {text rest : List Char} {token : Token} {position : Nat} :
      Cuts text rest token → Heads (covering token text position) position (text ++ rest)

section
variable {position : Nat} {chars text rest rest' : List Char} {token : Token} {x : Lexeme} {ys zs : List Lexeme}

theorem Cuts.congr (h : Cuts text rest token) (hrest : ∀ c ∈ rest'.head?, c.isDigit = false ∨ c ∈ rest.head?) :
    Cuts text rest' token := by
  cases h with
  | digits hne hrun hstop => exact .digits hne hrun fun c hc => (hrest c hc).elim id (hstop c)
  | symbol hb hd => exact .symbol hb hd

theorem runValue_le_append (run more : List Char) : Decimal.runValue run ≤ Decimal.runValue (run ++ more) := by
  have hpos : 0 < 10 ^ more.length := Nat.pow_pos (by decide)
  calc Decimal.runValue run
    _ ≤ 10 ^ more.length * Decimal.runValue run := Nat.le_mul_of_pos_left _ hpos
    _ ≤ 10 ^ more.length * Decimal.runValue run + Decimal.runValue more := Nat.le_add_right _ _
    _ = Nat.ofDigitChars 10 more (Decimal.runValue run) := Nat.ofDigitChars_eq_ofDigitChars_zero.symm
    _ = Decimal.runValue (run ++ more) := (Nat.ofDigitChars_append 0).symm

/-- What follows a lexeme can at most lengthen a number. -/
theorem Cuts.lengthened (h : Cuts text rest token) (more : List Char) :
    ∃ text' rest' token', text ++ more = text' ++ rest' ∧ Cuts text' rest' token' ∧
      (text' = text ∧ token' = token ∨
        (∃ v, token = .number v) ∧ (∃ v', token' = .number v') ∧
          Decimal.runValue text ≤ Decimal.runValue text') := by
  cases h with
  | symbol hb hd => exact ⟨_, more, _, rfl, .symbol hb hd, .inl ⟨rfl, rfl⟩⟩
  | digits hne hrun hrest =>
    have hmore : ∀ c ∈ text ++ more.takeWhile Char.isDigit, c.isDigit = true :=
      List.forall_mem_append.mpr ⟨hrun, List.all_eq_true.mp List.all_takeWhile⟩
    refine ⟨_, _, _, ?_, .digits (List.append_ne_nil_of_left_ne_nil hne _) hmore (head?_dropWhile_isDigit more),
      .inr ⟨⟨_, rfl⟩, ⟨_, rfl⟩, ?_⟩⟩
    · rw [List.append_assoc, List.takeWhile_append_dropWhile]
    · exact runValue_le_append _ _

/-- The lexemes before `x` depend on no more of the characters from `x` on than whether they lengthen a number. -/
theorem exists_split (h : scanAll position chars = ys ++ x :: zs) :
    ∃ before after, chars = before ++ after ∧ Heads x (position + bytes before) after ∧
      ∀ rest, (∀ c ∈ rest.head?, c.isDigit = false ∨ c ∈ after.head?) →
        scanAll position (before ++ rest) = ys ++ scanAll (position + bytes before) rest := by
  induction ys generalizing position chars with
  | nil =>
    rcases exists_cuts chars with hblanks | ⟨blanks, text, rest, token, hblanks, hcuts, rfl⟩
    · rw [scanAll_of_blank hblanks] at h
      obtain rfl := (List.cons.inj h).1
      exact ⟨chars, [], (List.append_nil _).symm, .finish, fun rest _ => scanAll_blanks hblanks position rest⟩
    · rw [scanAll_blanks hblanks, scanAll_cuts hcuts] at h
      obtain rfl := (List.cons.inj h).1
      exact ⟨blanks, text ++ rest, rfl, .cut hcuts, fun rest _ => scanAll_blanks hblanks position rest⟩
  | cons y ys ih =>
    rcases exists_cuts chars with hblanks | ⟨blanks, text, rest, token, hblanks, hcuts, rfl⟩
    · rw [scanAll_of_blank hblanks] at h
      exact absurd (List.cons.inj h).2.symm (List.append_ne_nil_of_right_ne_nil _ (List.cons_ne_nil _ _))
    · rw [scanAll_blanks hblanks, scanAll_cuts hcuts] at h
      obtain ⟨rfl, htail⟩ := List.cons.inj h
      obtain ⟨before, after, rfl, hheads, hsplit⟩ := ih htail
      have hbytes : position + bytes (blanks ++ (text ++ before)) =
          position + bytes blanks + bytes text + bytes before := by
        rw [bytes_append, bytes_append]
        omega
      refine ⟨blanks ++ (text ++ before), after, ?_, by rwa [hbytes], fun rest hrest => ?_⟩
      · rw [List.append_assoc, List.append_assoc]
      · -- behind a number stands no digit now, so none stands there with `rest` in place of `after`
        have hcuts' : Cuts text (before ++ rest) token := by
          refine hcuts.congr fun c hc => ?_
          cases before with
          | nil => exact hrest c hc
          | cons d before => exact .inr hc
        rw [List.append_assoc, List.append_assoc, scanAll_blanks hblanks, scanAll_cuts hcuts', hsplit rest hrest, hbytes,
          List.cons_append]

end

end Lexeme

namespace Parse

open Lexeme

/-! ## The lexeme at an error -/

section
variable {lenient : Bool} {phase : Phase} {opened : Nat} {xs : List Lexeme} {x y : Lexeme} {e : Error}

theorem scan_cons_cases (lenient : Bool) (phase : Phase) (opened : Nat) (x : Lexeme) :
    (∃ cause, classify lenient x phase opened = .error cause ∧
      ∀ rest, scan lenient phase opened (x :: rest) = .error ⟨x.start, cause⟩) ∨
    (∀ rest, scan lenient phase opened (x :: rest) = .ok ()) ∨
    ∃ phase' opened', ∀ rest, scan lenient phase opened (x :: rest) = scan lenient phase' opened' rest := by
  cases hm : classify lenient x phase opened with
  | error cause => exact .inl ⟨cause, rfl, fun rest => by rw [scan_cons, hm]⟩
  | ok move =>
    cases move with
    | literal => exact .inr (.inr ⟨.operator, opened, fun rest => by rw [scan_cons, hm]⟩)
    | sign => exact .inr (.inr ⟨.operand, opened, fun rest => by rw [scan_cons, hm]⟩)
    | opening => exact .inr (.inr ⟨.operand, opened + 1, fun rest => by rw [scan_cons, hm]⟩)
    | operator op => exact .inr (.inr ⟨.operand, opened, fun rest => by rw [scan_cons, hm]⟩)
    | closing => exact .inr (.inr ⟨.operator, opened - 1, fun rest => by rw [scan_cons, hm]⟩)
    | finish => exact .inr (.inl fun rest => by rw [scan_cons, hm])

/-- The scan passes over the lexemes before its error, whatever stands behind them. -/
theorem exists_fault (h : scan lenient phase opened xs = .error e) :
    ∃ ys x zs phase' opened', xs = ys ++ x :: zs ∧ x.start = e.position ∧
      classify lenient x phase' opened' = .error e.cause ∧
      ∀ rest, scan lenient phase opened (ys ++ rest) = scan lenient phase' opened' rest := by
  induction xs generalizing phase opened with
  | nil => cases h
  | cons x xs ih =>
    rcases scan_cons_cases lenient phase opened x with ⟨cause, hfault, herror⟩ | hok | ⟨phase', opened', hstep⟩
    · rw [herror] at h
      cases h
      exact ⟨[], x, xs, phase, opened, rfl, rfl, hfault, fun rest => rfl⟩
    · cases (hok xs).symm.trans h
    · rw [hstep] at h
      obtain ⟨ys, z, zs, phase'', opened'', rfl, hstart, hfault, hpass⟩ := ih h
      exact ⟨x :: ys, z, zs, phase'', opened'', rfl, hstart, hfault, fun rest => (hstep _).trans (hpass rest)⟩

/-! ## Completing a text -/

/-- An operand where one is due, and the closing parentheses that are. -/
def completion (opened : Nat) : Phase → List Token
  | .operand => .one :: List.replicate opened .closeParen
  | .operator => List.replicate opened .closeParen

theorem plain_of_mem_completion : ∀ z ∈ completion opened phase, z.Plain := by
  have hclosing : ∀ z ∈ List.replicate opened Token.closeParen, z.Plain := fun z hz =>
    (List.mem_replicate.mp hz).2 ▸ trivial
  cases phase with
  | operand => exact List.forall_mem_cons.mpr ⟨rfl, hclosing⟩
  | operator => exact hclosing

theorem scan_closings (hxs : xs.map Lexeme.token = List.replicate opened .closeParen) (hy : y.token = .endOfInput) :
    scan lenient .operator opened (xs ++ [y]) = .ok () := by
  induction opened generalizing xs with
  | zero =>
    obtain rfl := List.map_eq_nil_iff.mp hxs
    exact scan_endOfInput hy
  | succ opened ih =>
    obtain ⟨x, xs, rfl, hx, hxs⟩ := List.map_eq_cons_iff.mp hxs
    rw [List.cons_append, scan_closeParen hx, ih hxs]

theorem scan_completion (hxs : xs.map Lexeme.token = completion opened phase) (hr : ∀ x ∈ xs, x.Readable)
    (hy : y.token = .endOfInput) : scan lenient phase opened (xs ++ [y]) = .ok () := by
  cases phase with
  | operator => exact scan_closings hxs hy
  | operand =>
    obtain ⟨x, xs, rfl, hx, hxs⟩ := List.map_eq_cons_iff.mp hxs
    rw [List.cons_append, scan_number hx (hr x List.mem_cons_self), scan_closings hxs hy]

end

/-- Some expression starts with the text. -/
def Viable (text : String) : Prop :=
  ∃ more least, ∀ o : Options, o.allowTrailing = false → least ≤ o.maxDepth →
    ∃ t, parse (text ++ more) o = .ok t

/-- No expression starts with the text. -/
def Hopeless (text : String) : Prop :=
  ∀ more (o : Options) t, o.allowTrailing = false → parse (text ++ more) o ≠ .ok t

theorem viable_of_scan {before : List Char} {ys : List Lexeme} {phase : Phase} {opened : Nat}
    (hsplit : ∀ rest, (∀ c ∈ rest.head?, c.isDigit = false) →
      scanAll 0 (before ++ rest) = ys ++ scanAll (bytes before) rest)
    (hpass : ∀ rest, scan false .operand 0 (ys ++ rest) = scan false phase opened rest) :
    Viable (String.ofList before) := by
  -- the blank keeps the completion apart from a number before it
  have hspells : Spells (' ' :: spelled (completion opened phase)) (completion opened phase) :=
    (spells_spelled plain_of_mem_completion).blank rfl
  obtain ⟨xs, hscan, hxs, hall⟩ := hspells (bytes before) [] (fun _ hc => (Option.not_mem_none _ hc).elim)
  rw [List.append_nil, scanAll_nil] at hscan
  have hblank : ∀ c ∈ (' ' :: spelled (completion opened phase)).head?, c.isDigit = false := fun c hc =>
    Option.some.inj hc ▸ rfl
  refine ⟨String.ofList (' ' :: spelled (completion opened phase)), _, fun o hstrict hlimit =>
    exists_parse_of_scan (withinLimit_of_bytes_le hlimit) ?_⟩
  rw [hstrict, lexemes, ← String.ofList_append, String.toList_ofList, hsplit _ hblank, hpass, hscan,
    scan_completion hxs hall rfl]

/-! ## No way on -/

section
variable {text : List Char} {token : Token} {phase : Phase} {opened : Nat} {x x' : Lexeme} {v v' : Binary64}
  {cause : Cause}

theorem classify_lengthened (hx : x.token = .number v) (hx' : x'.token = .number v')
    (hle : x.magnitude ≤ x'.magnitude) (h : classify false x phase opened = .error cause) :
    ∃ cause', classify false x' phase opened = .error cause' := by
  cases phase with
  | operand =>
    have hlarge : ¬ x.magnitude ≤ Binary64.maxExactInteger := fun hsmall => by
      cases (classify_number hx hsmall).symm.trans h
    have hlarge' : ¬ x'.magnitude ≤ Binary64.maxExactInteger := fun hsmall => hlarge (Nat.le_trans hle hsmall)
    exact ⟨.literalTooLarge x'.text, classify_literalTooLarge hx' hlarge'⟩
  | operator =>
    cases opened with
    | zero => exact ⟨.unexpectedTrailingTokens x'.token.describe, by simp [classify, hx', Token.binaryOp?]⟩
    | succ opened => exact ⟨.expectedClosingParen, by simp [classify, hx', Token.binaryOp?]⟩

theorem hopeless_of_scan {before rest : List Char} {ys : List Lexeme} (hcuts : Cuts text rest token)
    (hsplit : ∀ more, scanAll 0 (before ++ (text ++ more)) = ys ++ scanAll (bytes before) (text ++ more))
    (hpass : ∀ rest, scan false .operand 0 (ys ++ rest) = scan false phase opened rest)
    (hfault : classify false (covering token text (bytes before)) phase opened = .error cause) :
    Hopeless (String.ofList (before ++ text)) := by
  intro more o t hstrict ht
  obtain ⟨text', rest', token', hmore, hcuts', hlonger⟩ := hcuts.lengthened more.toList
  have hfault' : ∃ cause', classify false (covering token' text' (bytes before)) phase opened = .error cause' := by
    rcases hlonger with ⟨rfl, rfl⟩ | ⟨⟨v, hv⟩, ⟨v', hv'⟩, hle⟩
    · exact ⟨cause, hfault⟩
    · refine classify_lengthened (x := covering token text (bytes before)) hv hv' ?_ hfault
      rwa [magnitude_covering, magnitude_covering]
  obtain ⟨cause', hfault'⟩ := hfault'
  have hscan := scan_of_parse_ok ht
  rw [hstrict, lexemes, String.toList_append, String.toList_ofList, List.append_assoc, hsplit, hpass, hmore,
    scanAll_cuts hcuts', scan_cons, hfault'] at hscan
  cases hscan

end

/-! ## The first error -/

/-- `text` is the source up to byte `position`. -/
def UpTo (source : String) (position : Nat) (text : String) : Prop :=
  ∃ rest, source = text ++ rest ∧ text.utf8ByteSize = position

/-- Strict parsing reports the first lexeme with which no expression starts, or
the end of input where more is due. -/
theorem first_error (source : String) (o : Options) (e : Error) (hstrict : o.allowTrailing = false)
    (h : parse source o = .error e) (he : e.isTooDeep = false) :
    (∃ text, UpTo source e.position text ∧ Viable text) ∧
    (e.position < source.utf8ByteSize →
      (∃ x ∈ lexemes source, x.start = e.position) ∧
      ∀ x ∈ lexemes source, x.start = e.position → ∃ text, UpTo source x.stop text ∧ Hopeless text) := by
  have hscan := scan_of_parse_error h he
  rw [hstrict] at hscan
  obtain ⟨ys, x, zs, phase, opened, hxs, hstart, hfault, hpass⟩ := exists_fault hscan
  obtain ⟨before, after, hsource, hheads, hsplit⟩ := exists_split hxs
  simp only [Nat.zero_add] at hheads hsplit
  have hbefore : source = String.ofList before ++ String.ofList after := by
    rw [← String.ofList_append, ← hsource, String.ofList_toList]
  refine ⟨⟨String.ofList before, ⟨_, hbefore, ?_⟩, viable_of_scan (fun rest hrest => ?_) hpass⟩, fun hinside => ?_⟩
  · cases hheads <;> exact hstart
  · exact hsplit rest fun c hc => .inl (hrest c hc)
  have hx : x ∈ lexemes source := hxs ▸ List.mem_append_right ys List.mem_cons_self
  refine ⟨⟨x, hx, hstart⟩, fun y hy hy' => ?_⟩
  obtain rfl := (spans_lexemes source).eq_of_start_eq x hx y hy (hstart.trans hy'.symm)
  cases hheads with
  | finish =>
    rw [hbefore, ← hstart, ← String.ofList_append, List.append_nil] at hinside
    exact absurd hinside (Nat.lt_irrefl _)
  | @cut text rest token _ hcuts =>
    refine ⟨String.ofList (before ++ text), ⟨String.ofList rest, ?_, bytes_append before text⟩,
      hopeless_of_scan hcuts (fun more => hsplit _ fun c hc => .inr ?_) hpass hfault⟩
    · rw [hbefore, String.ofList_append, String.ofList_append, String.append_assoc]
    · obtain ⟨d, text, rfl⟩ := List.exists_cons_of_ne_nil hcuts.ne_nil
      exact hc

theorem first_error_unclosed :
    parse "-2*(3 4" {} = .error ⟨6, .expectedClosingParen⟩ ∧
    (∃ text, UpTo "-2*(3 4" 6 text ∧ Viable text) ∧
    (∃ x ∈ lexemes "-2*(3 4", x.start = 6) ∧
    ∀ x ∈ lexemes "-2*(3 4", x.start = 6 → ∃ text, UpTo "-2*(3 4" x.stop text ∧ Hopeless text := by
  have h : parse "-2*(3 4" {} = .error ⟨6, .expectedClosingParen⟩ := by decide +kernel
  obtain ⟨hviable, hinside⟩ := first_error "-2*(3 4" {} _ rfl h rfl
  exact ⟨h, hviable, hinside (by decide)⟩

end Parse

end Calculator
