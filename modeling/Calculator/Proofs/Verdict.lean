import Calculator.Proofs.ScanRuns

/-!
# The parser's verdict

Whether a source is accepted, and with which error it is refused, can be read
off one pass over its lexemes: `scanWithin` in general, and `scan` when the
levels suffice.
-/

namespace Calculator.Parse

/-! ## The limit -/

def Error.isTooDeep (e : Error) : Bool :=
  match e.cause with
  | .nestingTooDeep _ => true
  | _ => false

theorem Error.isTooDeep_eq_false_iff {e : Error} : e.isTooDeep = false ↔ ∀ n, e.cause ≠ .nestingTooDeep n := by
  unfold Error.isTooDeep
  cases e.cause <;> simp

/-- The parser does not answer that the source nests too deep. -/
def WithinLimit (source : String) (o : Options) : Prop :=
  ∀ e, parse source o = .error e → e.isTooDeep = false

instance (source : String) (o : Options) : Decidable (WithinLimit source o) :=
  match h : parse source o with
  | .ok _ => .isTrue fun _ he => nomatch h.symm.trans he
  | .error e =>
    have hiff : e.isTooDeep = false ↔ WithinLimit source o :=
      ⟨fun hd _ he => Except.error.inj (h.symm.trans he) ▸ hd, fun hw => hw e h⟩
    decidable_of_decidable_of_iff hiff

/-! ## One pass -/

section
variable {o : Options} {b c d : Cursor} {t : Expr} {e : Error} {xs : List Lexeme}

theorem Fits.initial (hb : b.depth = 0) : Fits .expression b.depth .fresh [] := by
  rw [hb]
  exact ⟨rfl, rfl⟩

theorem Parses.scanWithin_eq (h : Parses o (.production .expression) b t d) (hr : Ready b.ahead) (hb : b.depth = 0)
    (lenient : Bool) :
    scanWithin o.maxDepth lenient .operand .fresh [] b.ahead =
      scanWithin o.maxDepth lenient .operator .fresh [] d.ahead :=
  h.tracks lenient hr _ _ (.initial hb) _ (.refl _ _)

theorem ensures_document_scanWithin (o : Options) (hc : Lexeme.Stream c.unread) (hd : c.depth = 0) :
    Ensures (document o) c
      (fun _ d => scanWithin o.maxDepth o.allowTrailing .operand .fresh [] c.unread = .ok d.ahead)
      (fun e _ => scanWithin o.maxDepth o.allowTrailing .operand .fresh [] c.unread = .error e) := by
  refine (ensures_document o hc).mono ?_ ?_
  · rintro t d ⟨b, hp, ht, hend⟩
    have hr := hp.ready hc
    have hb : b.depth = 0 := hp.depth.trans hd
    have hs := ht.stands hr
    rw [hp.unread, ht.scanWithin_eq hr hb]
    exact scanWithin_finish (hs.ready.2 d.current rfl) hs.stops.binaryOp?_eq_none hend
  · rintro e d (hrefused | ⟨b, hp, hfailed⟩)
    · exact scanWithin_refused hrefused .operand
    · have hr := hp.ready hc
      have hb : b.depth = 0 := hp.depth.trans hd
      rw [hp.unread]
      rcases hfailed with he | ⟨t, ht, hstrict, hmore, rfl⟩
      · exact he.reports o.allowTrailing hr _ _ (.initial hb)
      · have hs := ht.stands hr
        rw [ht.scanWithin_eq hr hb, hstrict]
        exact scanWithin_trailing (hs.ready.2 d.current rfl) hs.stops.binaryOp?_eq_none hmore

end

section
variable (source : String) (o : Options)

/-- How a run ends, without the grouping: in the same error, or with the same
lexemes unread. -/
theorem run_scanWithin :
    match run source o with
    | .ok _ d => scanWithin o.maxDepth o.allowTrailing .operand .fresh [] (lexemes source) = .ok d.ahead
    | .error e _ => scanWithin o.maxDepth o.allowTrailing .operand .fresh [] (lexemes source) = .error e := by
  have h := ensures_document_scanWithin (c := .ofLexemes (lexemes source)) o (stream_lexemes source) rfl
  unfold Ensures at h
  unfold run
  cases hr : document o (.ofLexemes (lexemes source)) with
  | ok t d => rw [hr] at h; exact h
  | error e d => rw [hr] at h; exact h

theorem parse_eq_ok_iff {t : Expr} : parse source o = .ok t ↔ ∃ d, run source o = .ok t d := by
  unfold parse
  cases run source o with
  | ok u d => simp
  | error e d => simp

theorem parse_eq_error_iff {e : Error} : parse source o = .error e ↔ ∃ d, run source o = .error e d := by
  unfold parse
  cases run source o with
  | ok u d => simp
  | error e d => simp

variable {source : String} {o : Options}

theorem scan_of_parse_ok {t : Expr} (h : parse source o = .ok t) :
    scan o.allowTrailing .operand 0 (lexemes source) = .ok () := by
  obtain ⟨d, hr⟩ := (parse_eq_ok_iff source o).mp h
  have hrun := run_scanWithin source o
  rw [hr] at hrun
  exact scan_of_scanWithin_ok hrun

theorem scan_of_parse_error {e : Error} (h : parse source o = .error e) (he : e.isTooDeep = false) :
    scan o.allowTrailing .operand 0 (lexemes source) = .error e := by
  obtain ⟨d, hr⟩ := (parse_eq_error_iff source o).mp h
  have hrun := run_scanWithin source o
  rw [hr] at hrun
  exact scan_of_scanWithin_error hrun (Error.isTooDeep_eq_false_iff.mp he)

theorem exists_parse_of_scan (hlimit : WithinLimit source o)
    (h : scan o.allowTrailing .operand 0 (lexemes source) = .ok ()) : ∃ t, parse source o = .ok t := by
  cases hp : parse source o with
  | ok t => exact ⟨t, rfl⟩
  | error e => cases h.symm.trans (scan_of_parse_error hp (hlimit e hp))

/-- The parser finds the error of the one-pass scan, or none as it does, unless
the source nests too deep. -/
theorem parse_eq_scan (source : String) (o : Options) (h : WithinLimit source o) :
    (parse source o).map (fun _ => ()) = scan o.allowTrailing .operand 0 (lexemes source) := by
  cases hp : parse source o with
  | ok t => exact (scan_of_parse_ok hp).symm
  | error e => exact (scan_of_parse_error hp (h e hp)).symm

theorem parse_eq_scan_unclosed :
    WithinLimit "-2*(3 4" {} ∧
      (parse "-2*(3 4" {}).map (fun _ => ()) = scan false .operand 0 (lexemes "-2*(3 4") :=
  ⟨by decide +kernel, parse_eq_scan _ _ (by decide +kernel)⟩

end

end Calculator.Parse
