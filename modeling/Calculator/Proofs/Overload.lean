import Calculator.Proofs.Places

/-!
# The first operand that needs too many levels

Which source nests too deep, and where, is a sum over the groups that are open
at an operand. The lexeme that stands there plays no part in it, so the limit
comes before a fault of that lexeme.
-/

namespace Calculator.Parse

/-- Behind the lexemes `before` an operand is due that needs more than `limit` levels. -/
def OverloadedAt (limit : Nat) (before : List Lexeme) (x : Lexeme) : Prop :=
  ∃ p, Place.start.after before = some p ∧ p.overloaded limit x = true

def FirstOverloaded (limit : Nat) (xs : List Lexeme) (x : Lexeme) : Prop :=
  ∃ before rest, xs = before ++ x :: rest ∧ OverloadedAt limit before x ∧
    ∀ earlier y later, before = earlier ++ y :: later → ¬ OverloadedAt limit earlier y

section
variable {limit n : Nat} {lenient : Bool} {xs before rest : List Lexeme} {x : Lexeme} {p : Place}

theorem exists_firstOverloaded (hsplit : xs = before ++ x :: rest) (h : OverloadedAt limit before x) :
    ∃ y, FirstOverloaded limit xs y := by
  induction hlength : before.length using Nat.strong_induction_on generalizing before x rest with
  | _ length ih =>
    by_cases hfirst : ∀ earlier y later, before = earlier ++ y :: later → ¬ OverloadedAt limit earlier y
    · exact ⟨x, before, rest, hsplit, h, hfirst⟩
    · push Not at hfirst
      obtain ⟨earlier, y, later, rfl, hy⟩ := hfirst
      have hshorter : earlier.length < length := by
        rw [← hlength, List.length_append, List.length_cons]
        omega
      have hearlier : xs = earlier ++ y :: (later ++ x :: rest) := by
        rw [hsplit, List.append_assoc, List.cons_append]
      exact ih earlier.length hshorter hearlier hy rfl

theorem FirstOverloaded.exists_halts (h : FirstOverloaded limit xs x) :
    ∃ before rest p, Place.start.Halts limit xs before x rest p ∧ p.overloaded limit x = true := by
  obtain ⟨before, rest, hsplit, ⟨p, hafter, hover⟩, hfirst⟩ := h
  refine ⟨before, rest, p, ⟨hsplit, Place.reads_iff.mpr ⟨hafter, fun earlier y later q hearlier hq => ?_⟩, .inl hover⟩,
    hover⟩
  exact Bool.eq_false_iff.mpr fun hy => hfirst earlier y later hearlier ⟨q, hq, hy⟩

theorem firstOverloaded_of_halts (h : Place.start.Halts limit xs before x rest p) (hover : p.overloaded limit x = true) :
    FirstOverloaded limit xs x := by
  obtain ⟨hafter, hearlier⟩ := Place.reads_iff.mp h.reads
  refine ⟨before, rest, h.split, ⟨p, hafter, hover⟩, ?_⟩
  rintro earlier y later hsplit ⟨q, hq, hy⟩
  rw [hearlier earlier y later q hsplit hq] at hy
  cases hy

theorem verdict_eq_nestingTooDeep_iff :
    p.verdict limit lenient x = .error (.nestingTooDeep n) ↔ n = limit ∧ p.overloaded limit x = true := by
  cases hover : p.overloaded limit x with
  | true => simp [Place.verdict_of_overloaded hover, eq_comm]
  | false =>
    rw [Place.verdict_eq_error_iff hover]
    simpa using fun h => classify_ne_nestingTooDeep h n rfl

end

/-- The parser answers that a source nests too deep just when one of its operands needs more levels
than the limit, and the first such operand is the place. -/
theorem nestingTooDeep_iff_overloaded (source : String) (o : Options) :
    ((∃ p n, parse source o = .error ⟨p, .nestingTooDeep n⟩) ↔
      ∃ before x rest, lexemes source = before ++ x :: rest ∧ OverloadedAt o.maxDepth before x) ∧
    ∀ p n, parse source o = .error ⟨p, .nestingTooDeep n⟩ ↔
      n = o.maxDepth ∧ ∃ x, FirstOverloaded o.maxDepth (lexemes source) x ∧ x.start = p := by
  have hplace : ∀ p n, parse source o = .error ⟨p, .nestingTooDeep n⟩ ↔
      n = o.maxDepth ∧ ∃ x, FirstOverloaded o.maxDepth (lexemes source) x ∧ x.start = p := by
    intro p n
    rw [parse_eq_error_iff_halts]
    constructor
    · rintro ⟨before, x, rest, q, hhalts, hv, hstart⟩
      obtain ⟨hn, hover⟩ := verdict_eq_nestingTooDeep_iff.mp hv
      exact ⟨hn, x, firstOverloaded_of_halts hhalts hover, hstart⟩
    · rintro ⟨hn, x, hfirst, hstart⟩
      obtain ⟨before, rest, q, hhalts, hover⟩ := hfirst.exists_halts
      exact ⟨before, x, rest, q, hhalts, verdict_eq_nestingTooDeep_iff.mpr ⟨hn, hover⟩, hstart⟩
  refine ⟨⟨?_, ?_⟩, hplace⟩
  · rintro ⟨p, n, h⟩
    obtain ⟨_, x, ⟨before, rest, hsplit, hover, _⟩, _⟩ := (hplace p n).mp h
    exact ⟨before, x, rest, hsplit, hover⟩
  · rintro ⟨before, x, rest, hsplit, hover⟩
    obtain ⟨y, hfirst⟩ := exists_firstOverloaded hsplit hover
    exact ⟨y.start, o.maxDepth, (hplace _ _).mpr ⟨rfl, y, hfirst, rfl⟩⟩

end Calculator.Parse
