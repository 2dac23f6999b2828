import Calculator.Proofs.LexerCalls
import Calculator.Proofs.NumberText
import Calculator.Proofs.Places

/-!
# Literals

A run of digits is a literal just when a double holds its number exactly. The
test is made on the rounded value, and the rounded value decides it: no larger
number rounds into the range, and none in it is changed.
-/

namespace Calculator

/-! ## The number that digits write -/

theorem Decimal.toBinary64_whole (n : Nat) : toBinary64 false ⟨n, 0⟩ = Binary64.ofNat n := by
  unfold toBinary64 Binary64.ofNat
  by_cases hn : n = 0
  · simp [hn]
  · simp [hn]

theorem MaximalRun.ofText?_eq {source text : String} {start : Nat} (h : MaximalRun source text start) (hne : text ≠ "") :
    Binary64.ofText? text = some (.ofNat (Decimal.runValue text.toList)) := by
  have hnumeral : Decimal.Numeral ⟨Decimal.runValue text.toList, 0⟩ text.toList := .whole (by simpa using hne) h.1
  rw [Binary64.ofText?, Binary64.ofChars?_of_numeral hnumeral, Decimal.toBinary64_whole]

/-- The lexeme of a number is all digits there are in its place, and its token their value. -/
theorem run_of_mem_lexemes {source : String} {x : Lexeme} {v : Binary64} (hx : x ∈ lexemes source)
    (hv : x.token = .number v) : x.text ≠ "" ∧ MaximalRun source x.text x.start ∧ v = .ofNat x.magnitude := by
  obtain ⟨y, hfollows⟩ := Lexer.exists_follows hx
  have hcovers := hfollows.covers
  rw [Lexeme.Covers, hv] at hcovers
  refine ⟨fun hempty => ?_, hcovers⟩
  have hnonempty := hfollows.nonempty (by simp [hv])
  obtain ⟨_, _, _, _, hstop⟩ := hfollows.slice
  rw [hempty, String.utf8ByteSize_empty] at hstop
  omega

namespace Parse

open Binary64 (maxExactInteger unitsPerOne)

/-! ## Factors that start with a number -/

section
variable {o : Options} {levels : Nat} {c : Cursor} {v : Binary64}

theorem ensures_factor_number {ok : Expr → Cursor → Prop} {bad : Error → Cursor → Prop}
    (hv : c.current.token = .number v) (hm : c.depth < o.maxDepth) :
    Ensures (factor o (levels + 1)) c ok bad ↔
      Ensures (literal v) c.enter (fun t d => ok t d.leave) (fun e d => bad e d.leave) := by
  unfold factor
  rw [ensures_nested, if_neg (Nat.not_le_of_lt hm), ensures_bind, ensures_current]
  simp only [Cursor.current_enter, hv]

theorem ensures_eq_error_iff {α : Type} {p : Parser α} {e : Error} {d : Cursor} :
    Ensures p c (fun _ _ => False) (fun e' d' => e' = e ∧ d' = d) ↔ p c = .error e d := by
  unfold Ensures
  cases p c with
  | ok a d' => simp
  | error e' d' => simp

theorem factor_of_inexact (hv : c.current.token = .number v) (hm : c.depth < o.maxDepth)
    (hexact : v.isExactInteger = false) :
    factor o (levels + 1) c = .error ⟨c.current.start, .literalTooLarge c.current.text⟩ c := by
  rw [← ensures_eq_error_iff, ensures_factor_number hv hm]
  unfold literal
  rw [hexact]
  simp only [Bool.false_eq_true, ite_false, ensures_bind, ensures_current, ensures_fail]
  exact ⟨rfl, rfl⟩

theorem ensures_factor_exact (hv : c.current.token = .number v) (hm : c.depth < o.maxDepth)
    (hexact : v.isExactInteger = true) (hunread : Lexeme.Stream c.unread) :
    Ensures (factor o (levels + 1)) c (fun t d => t = .constant v ∧ c.Pulls d) c.Refuses := by
  rw [ensures_factor_number hv hm]
  unfold literal
  rw [hexact]
  simp only [ite_true, ensures_bind, ensures_pure]
  refine (ensures_advance (c := c.enter) hunread).mono (fun _ d hp => ⟨trivial, ?_⟩) (fun e d hr => ?_)
  · cases hp with
    | intro hu hx => exact .intro hu hx
  · cases hr with
    | intro hu hx => exact .intro hu hx

end

theorem Cursor.Refuses.cause_eq {c d : Cursor} {e : Error} (h : c.Refuses e d) :
    ∃ character, e.cause = .illegalCharacter character := by
  cases h with
  | intro _ _ => exact ⟨_, rfl⟩

/-- What a factor makes of the run of digits under the cursor, whose value is `v`. -/
structure ReadsExactly (source : String) (o : Options) (levels : Nat) (c : Cursor) (v : Binary64) : Prop where
  nonempty : c.current.text ≠ ""
  run : MaximalRun source c.current.text c.current.start
  rounded : Binary64.ofText? c.current.text = some v
  refused : factor o levels c = .error ⟨c.current.start, .literalTooLarge c.current.text⟩ c ↔
    maxExactInteger < c.current.magnitude
  accepted : c.current.magnitude ≤ maxExactInteger → Ensures (factor o levels) c
    (fun t d => (∃ h, t = .constant (.finite false (c.current.magnitude * unitsPerOne) h)) ∧ c.Pulls d) c.Refuses

section
variable {source : String} {o : Options} {levels : Nat} {c : Cursor} {v : Binary64}

theorem readsExactly (hc : c.ahead <:+ lexemes source) (hv : c.current.token = .number v) (hm : c.depth < o.maxDepth) :
    ReadsExactly source o (levels + 1) c v := by
  obtain ⟨read, hsplit⟩ := hc
  have hstream : Lexeme.Stream c.ahead := (hsplit ▸ stream_lexemes source).of_append (List.cons_ne_nil _ _)
  have hunread : Lexeme.Stream c.unread := hstream.tail (by rw [hv]; exact nofun)
  have hmem : c.current ∈ lexemes source := hsplit ▸ List.mem_append_right read List.mem_cons_self
  obtain ⟨hne, hrun, hvalue⟩ := run_of_mem_lexemes hmem hv
  have hfaithful : v.isExactInteger = true ↔ c.current.magnitude ≤ maxExactInteger := hstream.faithful v hv
  have hread : c.current.magnitude ≤ maxExactInteger →
      Ensures (factor o (levels + 1)) c (fun t d => t = .constant v ∧ c.Pulls d) c.Refuses :=
    fun hsmall => ensures_factor_exact hv hm (hfaithful.mpr hsmall) hunread
  refine ⟨hne, hrun, hvalue ▸ hrun.ofText?_eq hne, ⟨fun hrefused => ?_, fun hlarge => ?_⟩, fun hsmall => ?_⟩
  · -- an exact literal is read, so the factor fails only where the lexeme behind it is illegal
    refine Nat.lt_of_not_le fun hsmall => ?_
    have hends := hread hsmall
    rw [Ensures, hrefused] at hends
    obtain ⟨character, hcause⟩ := Cursor.Refuses.cause_eq hends
    cases hcause
  · refine factor_of_inexact hv hm (Bool.eq_false_iff.mpr fun hexact => ?_)
    exact Nat.not_le_of_lt hlarge (hfaithful.mp hexact)
  · refine (hread hsmall).mono (fun t d ht => ?_) (fun _ _ => id)
    refine ⟨⟨Binary64.representable_of_le hsmall, ?_⟩, ht.2⟩
    rw [ht.1, hvalue, Binary64.ofNat_of_le hsmall]

end

/-! ## Literals of a source -/

/-- The parser comes to `x` for an operand, and the levels suffice. -/
def Meets (limit : Nat) (xs : List Lexeme) (x : Lexeme) : Prop :=
  ∃ before rest p, xs = before ++ x :: rest ∧ Place.start.Reads limit before p ∧ p.due = .operand ∧ p.need ≤ limit

theorem classify_eq_literalTooLarge_iff {lenient : Bool} {x : Lexeme} {phase : Phase} {opened : Nat} {literal : String} :
    classify lenient x phase opened = .error (.literalTooLarge literal) ↔
      phase = .operand ∧ (∃ v, x.token = .number v) ∧ maxExactInteger < x.magnitude ∧ x.text = literal := by
  cases phase with
  | operand =>
    cases hx : x.token with
    | number v =>
      by_cases hm : x.magnitude ≤ maxExactInteger
      · simp [classify, hx, hm, Nat.not_lt_of_le hm]
      · simp [classify, hx, hm, Nat.lt_of_not_le hm]
    | _ => simp [classify, hx]
  | operator => cases hx : x.token <;> cases opened <;> cases lenient <;> simp [classify, hx, Token.binaryOp?]

theorem verdict_eq_literalTooLarge_iff {limit : Nat} {lenient : Bool} {p : Place} {x : Lexeme} {literal : String} :
    p.verdict limit lenient x = .error (.literalTooLarge literal) ↔
      p.due = .operand ∧ p.need ≤ limit ∧ (∃ v, x.token = .number v) ∧ maxExactInteger < x.magnitude ∧
        x.text = literal := by
  cases hover : p.overloaded limit x with
  | true =>
    have hneed : ¬ p.need ≤ limit := by
      simp only [Place.overloaded, Bool.and_eq_true, decide_eq_true_eq] at hover
      exact Nat.not_le_of_lt hover.2
    simp [Place.verdict_of_overloaded hover, hneed]
  | false =>
    rw [Place.verdict_eq_error_iff hover, classify_eq_literalTooLarge_iff]
    constructor
    · rintro ⟨hdue, ⟨v, hv⟩, hm⟩
      have hneed : p.need ≤ limit := by
        simpa [Place.overloaded, hdue, hv, Token.isIllegal] using hover
      exact ⟨hdue, hneed, ⟨v, hv⟩, hm⟩
    · rintro ⟨hdue, _, hv, hm⟩
      exact ⟨hdue, hv, hm⟩

/-- A literal is accepted just when its number is exact, wherever a factor meets it; and such a
literal is why a source is refused just when the parser comes to it. -/
theorem literal_accepted_iff_exact (source : String) (o : Options) :
    (∀ levels c v, c.ahead <:+ lexemes source → c.current.token = .number v → c.depth < o.maxDepth →
      ReadsExactly source o (levels + 1) c v) ∧
    ∀ p literal, parse source o = .error ⟨p, .literalTooLarge literal⟩ ↔
      ∃ x v, Meets o.maxDepth (lexemes source) x ∧ x.token = .number v ∧ maxExactInteger < x.magnitude ∧
        x.start = p ∧ x.text = literal := by
  refine ⟨fun levels c v => readsExactly, fun p literal => ?_⟩
  rw [parse_eq_error_iff_halts]
  constructor
  · rintro ⟨before, x, rest, q, hhalts, hv, hstart⟩
    obtain ⟨hdue, hneed, ⟨v, hv⟩, hm, htext⟩ := verdict_eq_literalTooLarge_iff.mp hv
    exact ⟨x, v, ⟨before, rest, q, hhalts.split, hhalts.reads, hdue, hneed⟩, hv, hm, hstart, htext⟩
  · rintro ⟨x, v, ⟨before, rest, q, hsplit, hreads, hdue, hneed⟩, hv, hm, hstart, htext⟩
    have hfault : classify false x q.due q.outer.length = .error (.literalTooLarge literal) :=
      classify_eq_literalTooLarge_iff.mpr ⟨hdue, ⟨v, hv⟩, hm, htext⟩
    exact ⟨before, x, rest, q, ⟨hsplit, hreads, .inr (Place.next_of_fault hfault)⟩,
      verdict_eq_literalTooLarge_iff.mpr ⟨hdue, hneed, ⟨v, hv⟩, hm, htext⟩, hstart⟩

/-- The lookahead is the first number that is too large, with a parenthesis read before it. -/
theorem successor_of_largest_refused :
    ∃ c v, c.ahead <:+ lexemes "(9007199254740992" ∧ c.current.token = .number v ∧ c.depth < 512 ∧
      ReadsExactly "(9007199254740992" {} 1 c v ∧ maxExactInteger < c.current.magnitude ∧
      parse "(9007199254740992" = .error ⟨1, .literalTooLarge "9007199254740992"⟩ := by
  let c : Cursor := ⟨.ofDigits 1 "9007199254740992".toList, [.endAt 17], [], 3⟩
  have hsplit : lexemes "(9007199254740992" = [⟨.openParen, "(", 0, 1⟩] ++ c.ahead := by decide +kernel
  have hm : maxExactInteger < c.current.magnitude := by decide +kernel
  have hmeets : Meets 512 (lexemes "(9007199254740992") c.current :=
    ⟨_, _, _, hsplit, .cons (by decide +kernel) rfl .nil, rfl, by decide +kernel⟩
  obtain ⟨hreads, hrefused⟩ := literal_accepted_iff_exact "(9007199254740992" {}
  exact ⟨c, _, ⟨_, hsplit.symm⟩, rfl, by decide, hreads 0 c _ ⟨_, hsplit.symm⟩ rfl (by decide), hm,
    (hrefused 1 _).mpr ⟨c.current, _, hmeets, rfl, hm, rfl, rfl⟩⟩

end Parse

end Calculator
