import Calculator.Proofs.Groupings
import Calculator.Proofs.Spans
import Mathlib.Data.Nat.Find
import Mathlib.Tactic.Choose

/-!
# The limit as a threshold

Under two limits the scan goes in step until the smaller one is exceeded. So
every source has a least limit that admits it, and beyond that limit nothing
changes.
-/

namespace Calculator.Parse

/-! ## One step of the scan -/

section
variable {limit limit' : Nat} {lenient : Bool} {phase : Phase} {g : Group} {outer : List Group}
  {x : Lexeme} {xs : List Lexeme} {e : Error}

theorem classify_ne_nestingTooDeep {opened : Nat} {cause : Cause}
    (h : classify lenient x phase opened = .error cause) (n : Nat) : cause ≠ .nestingTooDeep n := by
  rintro rfl
  obtain ⟨token, text, start, stop⟩ := x
  cases phase with
  | operand =>
    cases token with
    | number v =>
      by_cases hm : (Lexeme.mk (.number v) text start stop).magnitude ≤ Binary64.maxExactInteger
      · cases (classify_number rfl hm).symm.trans h
      · cases (classify_literalTooLarge rfl hm).symm.trans h
    | _ => cases h
  | operator => cases opened <;> cases lenient <;> cases token <;> cases h

theorem levels_addOperator_le (g : Group) (op : BinaryOp) (outer : List Group) :
    levels (g.addOperator op :: outer) ≤ levels (g :: outer) + 3 := by
  simp only [Group.addOperator, levels_cons]
  split <;> simp only [Group.levels] <;> omega

/-- What the scan does at `x`, under every limit that `x` keeps: it refuses `x`, finishes before it
or reads on with at most three levels more. -/
theorem scanWithin_cons_cases (lenient : Bool) (phase : Phase) (g : Group) (outer : List Group) (x : Lexeme)
    (xs : List Lexeme) :
    (∃ cause, (∀ n, cause ≠ .nestingTooDeep n) ∧ ∀ limit, crowded limit (g :: outer) x phase = false →
      scanWithin limit lenient phase g outer (x :: xs) = .error ⟨x.start, cause⟩) ∨
    (∀ limit, crowded limit (g :: outer) x phase = false →
      scanWithin limit lenient phase g outer (x :: xs) = .ok (x :: xs)) ∨
    ∃ phase' g' outer', levels (g' :: outer') ≤ levels (g :: outer) + 3 ∧
      ∀ limit, crowded limit (g :: outer) x phase = false →
        scanWithin limit lenient phase g outer (x :: xs) = scanWithin limit lenient phase' g' outer' xs := by
  cases hm : classify lenient x phase outer.length with
  | error cause =>
    refine .inl ⟨cause, classify_ne_nestingTooDeep hm, fun limit hc => ?_⟩
    rw [scanWithin_uncrowded hc, hm]
  | ok move =>
    cases move with
    | finish => exact .inr (.inl fun limit hc => by rw [scanWithin_uncrowded hc, hm])
    | literal =>
      exact .inr (.inr ⟨.operator, g, outer, Nat.le_add_right _ _,
        fun limit hc => by rw [scanWithin_uncrowded hc, hm]⟩)
    | sign =>
      refine .inr (.inr ⟨.operand, g.addSign, outer, ?_, fun limit hc => by rw [scanWithin_uncrowded hc, hm]⟩)
      simp only [levels_cons, Group.levels, Group.addSign]
      omega
    | opening =>
      refine .inr (.inr ⟨.operand, .fresh, g :: outer, ?_, fun limit hc => by rw [scanWithin_uncrowded hc, hm]⟩)
      simp only [levels_cons, Group.levels, Group.fresh]
      omega
    | operator op =>
      exact .inr (.inr ⟨.operand, g.addOperator op, outer, levels_addOperator_le g op outer,
        fun limit hc => by rw [scanWithin_uncrowded hc, hm]⟩)
    | closing =>
      refine .inr (.inr ⟨.operator, outer.headD g, outer.tail, ?_,
        fun limit hc => by rw [scanWithin_uncrowded hc, hm]⟩)
      cases outer with
      | nil => exact Nat.le_add_right _ _
      | cons h outer =>
        simp only [List.headD_cons, List.tail_cons, levels_cons]
        omega

theorem crowded_mono (hl : limit ≤ limit') {groups : List Group} (h : crowded limit groups x phase = false) :
    crowded limit' groups x phase = false := by
  cases phase with
  | operand =>
    simp only [crowded, Bool.and_eq_false_iff, decide_eq_false_iff_not] at h ⊢
    exact h.imp_right (by omega)
  | operator => rfl

/-! ## Two limits -/

theorem position_of_scanWithin_error (h : scanWithin limit lenient phase g outer xs = .error e) :
    ∃ x ∈ xs, e.position = x.start := by
  induction xs generalizing phase g outer with
  | nil => cases h
  | cons x xs ih =>
    by_cases hc : crowded limit (g :: outer) x phase = true
    · cases (scanWithin_crowded hc).symm.trans h
      exact ⟨x, List.mem_cons_self, rfl⟩
    · rw [Bool.not_eq_true] at hc
      rcases scanWithin_cons_cases lenient phase g outer x xs with ⟨cause, _, hx⟩ | hx | ⟨phase', g', outer', _, hx⟩
      · cases (hx limit hc).symm.trans h
        exact ⟨x, List.mem_cons_self, rfl⟩
      · cases (hx limit hc).symm.trans h
      · obtain ⟨y, hy, hpos⟩ := ih ((hx limit hc).symm.trans h)
        exact ⟨y, List.mem_cons_of_mem x hy, hpos⟩

/-- The larger limit gives the same answer, or the smaller one stops the scan, and no later than
the larger one does. -/
theorem scanWithin_lockstep (hl : limit ≤ limit') (hxs : xs.Pairwise fun x y => x.start ≤ y.start) :
    scanWithin limit' lenient phase g outer xs = scanWithin limit lenient phase g outer xs ∨
    ∃ p, scanWithin limit lenient phase g outer xs = .error ⟨p, .nestingTooDeep limit⟩ ∧
      ∀ e, scanWithin limit' lenient phase g outer xs = .error e → p ≤ e.position := by
  induction xs generalizing phase g outer with
  | nil => exact .inl rfl
  | cons x xs ih =>
    rw [List.pairwise_cons] at hxs
    by_cases hc : crowded limit (g :: outer) x phase = true
    · refine .inr ⟨x.start, scanWithin_crowded hc, fun e he => ?_⟩
      obtain ⟨y, hy, hpos⟩ := position_of_scanWithin_error he
      rw [hpos]
      rcases List.mem_cons.mp hy with rfl | hy
      · exact Nat.le_refl _
      · exact hxs.1 y hy
    · rw [Bool.not_eq_true] at hc
      have hc' := crowded_mono hl hc
      rcases scanWithin_cons_cases lenient phase g outer x xs with ⟨cause, _, hx⟩ | hx | ⟨phase', g', outer', _, hx⟩
      · exact .inl ((hx limit' hc').trans (hx limit hc).symm)
      · exact .inl ((hx limit' hc').trans (hx limit hc).symm)
      · rw [hx limit' hc', hx limit hc]
        exact ih hxs.2

/-- Every lexeme adds at most three levels. -/
theorem scanWithin_ne_nestingTooDeep (hl : levels (g :: outer) + 3 * xs.length ≤ limit + 3)
    (h : scanWithin limit lenient phase g outer xs = .error e) (n : Nat) : e.cause ≠ .nestingTooDeep n := by
  induction xs generalizing phase g outer with
  | nil => cases h
  | cons x xs ih =>
    rw [List.length_cons] at hl
    have hc : crowded limit (g :: outer) x phase = false := crowded_of_le (by omega) phase
    rcases scanWithin_cons_cases lenient phase g outer x xs with ⟨cause, hcause, hx⟩ | hx | ⟨phase', g', outer', hle, hx⟩
    · cases (hx limit hc).symm.trans h
      exact hcause n
    · cases (hx limit hc).symm.trans h
    · exact ih (by omega) ((hx limit hc).symm.trans h)

end

/-! ## The parser under two limits -/

theorem Phrase.unique {g : Grouping} {l : Level} {start rest : List Lexeme} {t u : Expr}
    (ht : Phrase g l start t rest) (hu : Phrase g l start u rest) : t = u := by
  obtain ⟨xs, rfl, hdt, _⟩ := ht
  obtain ⟨ys, heq, hdu, _⟩ := hu
  obtain rfl := List.append_cancel_right heq
  exact hdt.unique hdu

section
variable {source : String} {o : Options} {t : Expr} {e : Error} {g : Grouping} {lenient : Bool}
  {limit limit' : Nat}

theorem scanWithin_of_parse_eq_error (h : parse source o = .error e) :
    scanWithin o.maxDepth o.allowTrailing .operand .fresh [] (lexemes source) = .error e := by
  obtain ⟨d, hr⟩ := (parse_eq_error_iff source o).mp h
  have hrun := run_scanWithin source o
  rwa [hr] at hrun

theorem parse_eq_error_of_scanWithin
    (h : scanWithin o.maxDepth o.allowTrailing .operand .fresh [] (lexemes source) = .error e) :
    parse source o = .error e := by
  have hrun := run_scanWithin source o
  cases hr : run source o with
  | ok t d =>
    rw [hr] at hrun
    cases hrun.symm.trans h
  | error f d =>
    rw [hr] at hrun
    cases hrun.symm.trans h
    exact (parse_eq_error_iff source o).mpr ⟨d, hr⟩

theorem phrase_of_parse_eq_ok (h : parse source o = .ok t) :
    ∃ rest, scanWithin o.maxDepth o.allowTrailing .operand .fresh [] (lexemes source) = .ok rest ∧
      Phrase o.grouping .expression (lexemes source) t rest := by
  obtain ⟨d, hr⟩ := (parse_eq_ok_iff source o).mp h
  have hrun := run_scanWithin source o
  rw [hr] at hrun
  exact ⟨d.ahead, hrun, (run_reads hr).1⟩

/-- Where the scan stops tells the phrase, and the phrase its only tree. -/
theorem parse_eq_ok_of_phrase {rest : List Lexeme}
    (hscan : scanWithin o.maxDepth o.allowTrailing .operand .fresh [] (lexemes source) = .ok rest)
    (ht : Phrase o.grouping .expression (lexemes source) t rest) : parse source o = .ok t := by
  cases hp : parse source o with
  | error e => cases hscan.symm.trans (scanWithin_of_parse_eq_error hp)
  | ok u =>
    obtain ⟨rest', hscan', hu⟩ := phrase_of_parse_eq_ok hp
    obtain rfl : rest' = rest := Except.ok.inj (hscan'.symm.trans hscan)
    rw [hu.unique ht]

theorem parse_congr (heq : scanWithin limit' lenient .operand .fresh [] (lexemes source) =
    scanWithin limit lenient .operand .fresh [] (lexemes source)) :
    parse source ⟨g, lenient, limit'⟩ = parse source ⟨g, lenient, limit⟩ := by
  cases hp : parse source ⟨g, lenient, limit⟩ with
  | error e => exact parse_eq_error_of_scanWithin (heq.trans (scanWithin_of_parse_eq_error hp))
  | ok t =>
    obtain ⟨rest, hscan, ht⟩ := phrase_of_parse_eq_ok hp
    exact parse_eq_ok_of_phrase (heq.trans hscan) ht

theorem parse_lockstep (hl : limit ≤ limit') :
    parse source ⟨g, lenient, limit'⟩ = parse source ⟨g, lenient, limit⟩ ∨
    ∃ p, parse source ⟨g, lenient, limit⟩ = .error ⟨p, .nestingTooDeep limit⟩ ∧
      ∀ e, parse source ⟨g, lenient, limit'⟩ = .error e → p ≤ e.position := by
  rcases scanWithin_lockstep hl (spans_lexemes source).pairwise with heq | ⟨p, hp, hle⟩
  · exact .inl (parse_congr heq)
  · exact .inr ⟨p, parse_eq_error_of_scanWithin hp, fun e he => hle e (scanWithin_of_parse_eq_error he)⟩

theorem withinLimit_of_bytes_le (h : 3 * source.utf8ByteSize + 3 ≤ o.maxDepth) : WithinLimit source o := by
  intro e he
  have hlength := (spans_lexemes source).length_le
  have hlevels : levels [.fresh] + 3 * (lexemes source).length ≤ o.maxDepth + 3 := by
    simp only [levels, Group.levels, Group.fresh]
    omega
  exact Error.isTooDeep_eq_false_iff.mpr
    (scanWithin_ne_nestingTooDeep hlevels (scanWithin_of_parse_eq_error he))

/-- A larger limit changes no tree, and no error but that of the limit itself. -/
theorem parse_eq_of_le (hl : limit ≤ limit') (h : WithinLimit source ⟨g, lenient, limit⟩) :
    parse source ⟨g, lenient, limit'⟩ = parse source ⟨g, lenient, limit⟩ := by
  rcases parse_lockstep hl with heq | ⟨p, hp, _⟩
  · exact heq
  · cases h _ hp

theorem exists_nestingTooDeep (h : ¬ WithinLimit source ⟨g, lenient, limit⟩) :
    ∃ p, parse source ⟨g, lenient, limit⟩ = .error ⟨p, .nestingTooDeep limit⟩ ∧
      ∀ limit', limit ≤ limit' → ∀ e, parse source ⟨g, lenient, limit'⟩ = .error e → p ≤ e.position := by
  have hlarge : WithinLimit source ⟨g, lenient, max limit (3 * source.utf8ByteSize + 3)⟩ :=
    withinLimit_of_bytes_le (Nat.le_max_right _ _)
  rcases parse_lockstep (Nat.le_max_left limit (3 * source.utf8ByteSize + 3)) with heq | ⟨p, hp, _⟩
  · exact absurd (fun e he => hlarge e (heq.trans he)) h
  · refine ⟨p, hp, fun limit' hl e he => ?_⟩
    rcases parse_lockstep hl with heq | ⟨q, hq, hle⟩
    · cases hp.symm.trans (heq.symm.trans he)
      exact Nat.le_refl _
    · cases hp.symm.trans hq
      exact hle e he

end

/-! ## The threshold -/

/-- Below `least` a run stops at its limit, at byte `stop limit`, and from there on it answers the
same under every limit. -/
structure CutBelow (run : Nat → Except Error Expr) (least : Nat) (answer : Except Error Expr)
    (stop : Nat → Nat) : Prop where
  within : ∀ e, answer = .error e → e.isTooDeep = false
  above : ∀ limit, least ≤ limit → run limit = answer
  below : ∀ limit, limit < least → run limit = .error ⟨stop limit, .nestingTooDeep limit⟩
  mono : ∀ limit limit', limit ≤ limit' → limit' < least → stop limit ≤ stop limit'
  before : ∀ limit e, limit < least → answer = .error e → stop limit ≤ e.position

/-- The limit only cuts: below a threshold that the length of the source bounds, the parser stops
at the limit, the earlier the smaller it is, and a larger limit changes nothing else. -/
theorem exists_least_limit (source : String) (g : Grouping) (lenient : Bool) :
    (∃ least answer stop, least ≤ 3 * source.utf8ByteSize + 3 ∧
      CutBelow (fun limit => parse source ⟨g, lenient, limit⟩) least answer stop) ∧
    ∀ limit limit', limit ≤ limit' → WithinLimit source ⟨g, lenient, limit⟩ →
      parse source ⟨g, lenient, limit'⟩ = parse source ⟨g, lenient, limit⟩ := by
  have hbound : WithinLimit source ⟨g, lenient, 3 * source.utf8ByteSize + 3⟩ :=
    withinLimit_of_bytes_le (Nat.le_refl _)
  have hexists : ∃ limit, WithinLimit source ⟨g, lenient, limit⟩ := ⟨_, hbound⟩
  have hleast : WithinLimit source ⟨g, lenient, Nat.find hexists⟩ := Nat.find_spec hexists
  have hstops : ∀ limit, ∃ p, limit < Nat.find hexists →
      parse source ⟨g, lenient, limit⟩ = .error ⟨p, .nestingTooDeep limit⟩ ∧
        ∀ limit', limit ≤ limit' → ∀ e, parse source ⟨g, lenient, limit'⟩ = .error e → p ≤ e.position := by
    intro limit
    by_cases hlt : limit < Nat.find hexists
    · obtain ⟨p, hp⟩ := exists_nestingTooDeep (Nat.find_min hexists hlt)
      exact ⟨p, fun _ => hp⟩
    · exact ⟨0, fun h => absurd h hlt⟩
  choose stop hstop using hstops
  refine ⟨⟨Nat.find hexists, parse source ⟨g, lenient, Nat.find hexists⟩, stop, Nat.find_min' hexists hbound, ?_⟩,
    fun limit limit' => parse_eq_of_le⟩
  exact {
    within := hleast
    above := fun limit hl => parse_eq_of_le hl hleast
    below := fun limit hlt => (hstop limit hlt).1
    mono := fun limit limit' hl hlt =>
      (hstop limit (Nat.lt_of_le_of_lt hl hlt)).2 limit' hl _ (hstop limit' hlt).1
    before := fun limit e hlt he => (hstop limit hlt).2 _ (Nat.le_of_lt hlt) e he }

end Calculator.Parse
