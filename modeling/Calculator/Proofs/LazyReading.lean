import Calculator.Log
import Calculator.Proofs.LexerCalls
import Calculator.Proofs.Phrase

/-!
# Lexemes that the parser pulls

What a run has pulled and what it has left unread are together the lexemes of
its source, whatever it does in between (`Parses.draws`, `Fails.sticks`). The
lexeme pulled last is the one behind the expression, or the one at fault.
-/

namespace Calculator.Parse

/-! ## One pull -/

namespace Cursor
variable {c d b : Cursor} {e : Error} {position : Nat}

/-- The lexemes pulled, in their order, and those not read. -/
def tape (c : Cursor) : List Lexeme := c.pulled.reverse ++ c.unread

/-- The lookahead is the lexeme pulled last. -/
def Current (c : Cursor) : Prop := c.pulled.head? = some c.current

/-- From `c` to `d` nothing is lost and nothing pulled twice. -/
structure Draws (c d : Cursor) : Prop where
  tape : d.tape = c.tape
  current : c.Current → d.Current

/-- Likewise, and the lexeme pulled last starts at `position`. -/
structure Sticks (c d : Cursor) (position : Nat) : Prop where
  tape : d.tape = c.tape
  latest : c.Current → ∃ x, d.pulled.head? = some x ∧ x.start = position

@[simp] theorem enter_draws : c.enter.Draws d ↔ c.Draws d := ⟨fun h => ⟨h.1, h.2⟩, fun h => ⟨h.1, h.2⟩⟩
@[simp] theorem draws_leave : c.Draws d.leave ↔ c.Draws d := ⟨fun h => ⟨h.1, h.2⟩, fun h => ⟨h.1, h.2⟩⟩
@[simp] theorem enter_sticks : c.enter.Sticks d position ↔ c.Sticks d position :=
  ⟨fun h => ⟨h.1, h.2⟩, fun h => ⟨h.1, h.2⟩⟩
@[simp] theorem sticks_leave : c.Sticks d.leave position ↔ c.Sticks d position :=
  ⟨fun h => ⟨h.1, h.2⟩, fun h => ⟨h.1, h.2⟩⟩

theorem Draws.refl (c : Cursor) : c.Draws c := ⟨rfl, id⟩

theorem Draws.trans (h : c.Draws b) (h' : b.Draws d) : c.Draws d :=
  ⟨h'.tape.trans h.tape, fun hc => h'.current (h.current hc)⟩

theorem Draws.sticks (h : c.Draws b) (h' : b.Sticks d position) : c.Sticks d position :=
  ⟨h'.tape.trans h.tape, fun hc => h'.latest (h.current hc)⟩

/-- A run that fails without a further pull fails at its lookahead. -/
theorem Draws.here (h : c.Draws d) : c.Sticks d d.current.start :=
  ⟨h.tape, fun hc => ⟨d.current, h.current hc, rfl⟩⟩

theorem Pulls.tape (h : c.Pulls d) : d.tape = c.tape := by
  cases h with
  | intro hu _ => simp [Cursor.tape, pull, hu]

theorem Pulls.current (h : c.Pulls d) : d.Current := by
  cases h with
  | intro _ _ => rfl

theorem Pulls.draws (h : c.Pulls d) : c.Draws d := ⟨h.tape, fun _ => h.current⟩

theorem Refuses.tape (h : c.Refuses e d) : d.tape = c.tape := by
  cases h with
  | intro hu _ => simp [Cursor.tape, refuse, hu]

theorem Refuses.latest (h : c.Refuses e d) : ∃ x, d.pulled.head? = some x ∧ x.start = e.position := by
  cases h with
  | intro _ _ => exact ⟨_, rfl, rfl⟩

theorem Refuses.sticks (h : c.Refuses e d) : c.Sticks d e.position := ⟨h.tape, fun _ => h.latest⟩

end Cursor

/-! ## Runs -/

section
variable {o : Options} {goal : Goal} {c d : Cursor} {t : Expr} {e : Error}

theorem Parses.draws (h : Parses o goal c t d) : c.Draws d := by
  -- to enter or leave a level pulls nothing, so the pulls of a rule follow one another
  induction h with
  | operand _ _ _ _ iha iht => simpa using (Cursor.enter_draws.mp iha).trans iht
  | stop _ => exact .refl _
  | right _ _ _ hp _ ih => exact hp.draws.trans ih
  | left _ _ _ hp _ _ _ ihb iht => simpa using (hp.draws.trans (Cursor.enter_draws.mp ihb)).trans iht
  | number _ _ _ hp => simpa using hp.draws
  | group _ _ hp _ _ hq ih => simpa using ((Cursor.enter_draws.mp hp.draws).trans ih).trans hq.draws
  | sign _ _ hp _ ih => simpa using (Cursor.enter_draws.mp hp.draws).trans ih

theorem Fails.sticks (h : Fails o goal c e d) : c.Sticks d e.position := by
  induction h with
  | tooDeep _ => exact (Cursor.Draws.refl _).here
  | operand _ _ _ ih => simpa using ih
  | chain _ _ ha _ ih => simpa using (Cursor.enter_draws.mp ha.draws).sticks ih
  | illegalOperand _ _ hr => exact hr.sticks
  | right _ _ _ hp _ ih => exact hp.draws.sticks ih
  | tooManyLinks _ _ _ hp _ => exact hp.draws.here
  | leftOperand _ _ _ hp _ _ ih => simpa using hp.draws.sticks (Cursor.enter_sticks.mp ih)
  | left _ _ _ hp _ hb _ ih => simpa using (hp.draws.trans (Cursor.enter_draws.mp hb.draws)).sticks ih
  | literalTooLarge _ _ _ => exact (Cursor.Draws.refl _).here
  | illegalNext _ _ hr => simpa using hr.sticks
  | inner _ _ hp _ ih => simpa using (Cursor.enter_draws.mp hp.draws).sticks ih
  | unclosed _ _ hp ht _ => simpa using ((Cursor.enter_draws.mp hp.draws).trans ht.draws).here
  | illegalAfter _ _ hp ht _ hr => simpa using ((Cursor.enter_draws.mp hp.draws).trans ht.draws).sticks hr.sticks
  | sign _ _ hp _ ih => simpa using (Cursor.enter_draws.mp hp.draws).sticks ih
  | endOfInput _ _ => exact (Cursor.Draws.refl _).here
  | unexpected _ _ _ => exact (Cursor.Draws.refl _).here

end

/-! ## Whole sources -/

/-- The lexemes that the parser pulls, in their order. -/
def pulls (source : String) (o : Options) : List Lexeme :=
  match run source o with
  | .ok _ d => d.pulled.reverse
  | .error _ d => d.pulled.reverse

/-- A run pulls the lexemes `read` and then `last`: one call of the lexer and one trace record for each. -/
structure Pulled (source : String) (o : Options) (read : List Lexeme) (last : Lexeme) : Prop where
  all : pulls source o = read ++ [last]
  initial : ∃ unread, lexemes source = read ++ last :: unread
  unended : ∀ x ∈ read, x.token ≠ .endOfInput
  called : read ++ [last] = (List.range (read.length + 1)).map fun k => Lexer.given source (k + 1)
  traced : (Log.parsing source o).filter (fun r => r.level = .trace) = (read ++ [last]).map Log.ofLexeme

section
variable {source : String} {o : Options} {c d : Cursor}

theorem ensures_document_draws (o : Options) (hc : Lexeme.Stream c.unread) :
    Ensures (document o) c (fun _ d => d.tape = c.tape ∧ d.Current)
      (fun e d => d.tape = c.tape ∧ ∃ x, d.pulled.head? = some x ∧ x.start = e.position) := by
  refine (ensures_document o hc).mono ?_ ?_
  · rintro t d ⟨b, hp, ht, _⟩
    exact ⟨ht.draws.tape.trans hp.tape, ht.draws.current hp.current⟩
  · rintro e d (hr | ⟨b, hp, hf⟩)
    · exact ⟨hr.tape, hr.latest⟩
    · have hb : b.Sticks d e.position := by
        rcases hf with hf | ⟨t, ht, _, _, rfl⟩
        · exact hf.sticks
        · exact ht.draws.here
      exact ⟨hb.tape.trans hp.tape, hb.latest hp.current⟩

theorem Cursor.exists_read {x : Lexeme} (hx : d.pulled.head? = some x) :
    ∃ read, d.pulled.reverse = read ++ [x] ∧ d.tape = read ++ x :: d.unread := by
  obtain ⟨earlier, hpulled⟩ := List.head?_eq_some_iff.mp hx
  have hreverse : d.pulled.reverse = earlier.reverse ++ [x] := by rw [hpulled, List.reverse_cons]
  refine ⟨earlier.reverse, hreverse, ?_⟩
  rw [Cursor.tape, hreverse, List.append_assoc, List.singleton_append]

/-- The first lexemes of a source are what so many calls of the lexer give. -/
theorem eq_map_given {xs ys : List Lexeme} (h : lexemes source = xs ++ ys) :
    xs = (List.range xs.length).map fun k => Lexer.given source (k + 1) := by
  obtain ⟨_, _, hlist⟩ := Lexer.after_of_scanAll (stream_lexemes source) (Lexer.ofSource source) rfl
  have htake : (lexemes source).take xs.length = xs := by rw [h, List.take_left]
  have hlength : xs.length ≤ (lexemes source).length := by simp [h]
  rw [show lexemes source = _ from hlist, ← List.map_take, List.take_range, Nat.min_eq_left hlength] at htake
  exact htake.symm

theorem filter_parsing_trace (source : String) (o : Options) :
    (Log.parsing source o).filter (fun r => r.level = .trace) = (pulls source o).map Log.ofLexeme := by
  have hall : ∀ xs : List Lexeme, (xs.map Log.ofLexeme).filter (fun r => r.level = .trace) = xs.map Log.ofLexeme := by
    intro xs
    rw [List.filter_eq_self]
    simp [Log.ofLexeme]
  unfold Log.parsing pulls
  cases run source o with
  | ok t d =>
    dsimp only
    rw [List.filter_append, hall]
    simp [Log.ofExpr]
  | error e d => exact hall _

theorem Pulled.of_split {read unread : List Lexeme} {last : Lexeme} (h : pulls source o = read ++ [last])
    (hsplit : lexemes source = read ++ last :: unread) : Pulled source o read last := by
  have hstream : Lexeme.Stream (read ++ last :: unread) := hsplit ▸ stream_lexemes source
  have hsplit' : lexemes source = read ++ [last] ++ unread := by
    rw [hsplit, List.append_assoc, List.singleton_append]
  constructor
  case all => exact h
  case initial => exact ⟨unread, hsplit⟩
  case unended => exact hstream.ne_endOfInput (List.cons_ne_nil _ _)
  case called =>
    have hcalled := eq_map_given hsplit'
    rwa [List.length_append, List.length_singleton] at hcalled
  case traced => rw [filter_parsing_trace, h]

/-- The parser pulls each lexeme once, in order and not before it is needed: up to the one at fault, or
else up to the first behind the expression. -/
theorem pulls_initial_segment (source : String) (o : Options) :
    ∃ read last, Pulled source o read last ∧
      match parse source o with
      | .ok t => Derives o.grouping .expression (read.map Lexeme.token) t ∧ last.token.binaryOp? = none ∧
          (o.allowTrailing = false → last.token = .endOfInput)
      | .error e => e.position = last.start := by
  have hdraws := ensures_document_draws (c := .ofLexemes (lexemes source)) o (stream_lexemes source)
  unfold Ensures at hdraws
  cases hrun : run source o with
  | error e d =>
    rw [show document o (.ofLexemes (lexemes source)) = .error e d from hrun] at hdraws
    obtain ⟨htape, x, hx, hposition⟩ := hdraws
    obtain ⟨read, hpulled, hread⟩ := Cursor.exists_read hx
    refine ⟨read, x, .of_split ?_ (hread.symm.trans htape).symm, ?_⟩
    · rw [pulls, hrun]
      exact hpulled
    · rw [parse, hrun]
      exact hposition.symm
  | ok t d =>
    rw [show document o (.ofLexemes (lexemes source)) = .ok t d from hrun] at hdraws
    obtain ⟨htape, hcurrent⟩ := hdraws
    obtain ⟨read, hpulled, hread⟩ := Cursor.exists_read hcurrent
    have hsplit : lexemes source = read ++ d.current :: d.unread := (hread.symm.trans htape).symm
    obtain ⟨⟨xs, hxs, hderives, _⟩, _, hend⟩ := run_reads hrun
    obtain ⟨b, _, _, hr, ht, _⟩ := run_parses hrun
    cases List.append_cancel_right (hsplit.symm.trans hxs)
    refine ⟨read, d.current, .of_split ?_ hsplit, ?_⟩
    · rw [pulls, hrun]
      exact hpulled
    · rw [parse, hrun]
      refine ⟨hderives, (ht.stands hr).stops.binaryOp?_eq_none, fun hstrict => ?_⟩
      exact hend.resolve_left (by simp [hstrict])

end

end Calculator.Parse
