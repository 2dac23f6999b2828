import Calculator.Proofs.Adequacy

/-!
# What the productions read

A production that returns has read a phrase of its level: the reference grammar
derives its tree from the lexemes between the two cursors.
-/

namespace Calculator.Parse

/-! ## Phrases -/

/-- A number that a double holds exactly, or no number. -/
def Exact (x : Lexeme) : Prop := ∀ v, x.token = .number v → v.isExactInteger = true

/-- The lexemes from `start` up to `rest` are a phrase of level `l`. -/
def Phrase (g : Grouping) (l : Level) (start : List Lexeme) (t : Expr) (rest : List Lexeme) : Prop :=
  ∃ xs, start = xs ++ rest ∧ Derives g l (xs.map Lexeme.token) t ∧ ∀ x ∈ xs, Exact x

section
variable {g : Grouping} {l : Level} {start rest rest' : List Lexeme} {t a b : Expr} {x : Lexeme}

theorem exact_of_token {y : Token} (hx : x.token = y) (hy : ∀ v, y ≠ .number v) : Exact x :=
  fun v hv => absurd (hx.symm.trans hv) (hy v)

theorem exact_of_binaryOp {op : BinaryOp} (hx : x.token.binaryOp? = some op) : Exact x := by
  intro v hv
  rw [hv] at hx
  cases hx

theorem Phrase.operand (h : Phrase g l.tighter start t rest) (hl : l ≠ .factor) :
    Phrase g l start t rest := by
  obtain ⟨xs, hs, hd, he⟩ := h
  exact ⟨xs, hs, .operand hl hd, he⟩

theorem Phrase.right {op : BinaryOp} (hg : g = .right) (hx : x.token.binaryOp? = some op)
    (hj : l.joins op = true) (ha : Phrase g l.tighter start a (x :: rest)) (hb : Phrase g l rest b rest') :
    Phrase g l start (.binary op a b) rest' := by
  obtain ⟨xs, rfl, hda, hea⟩ := ha
  obtain ⟨ys, rfl, hdb, heb⟩ := hb
  refine ⟨xs ++ x :: ys, by simp, ?_, ?_⟩
  · rw [List.map_append, List.map_cons]
    exact .right hg hx hj hda hdb
  · exact List.forall_mem_append.mpr ⟨hea, List.forall_mem_cons.mpr ⟨exact_of_binaryOp hx, heb⟩⟩

theorem Phrase.left {op : BinaryOp} (hg : g = .left) (hx : x.token.binaryOp? = some op)
    (hj : l.joins op = true) (ha : Phrase g l start a (x :: rest)) (hb : Phrase g l.tighter rest b rest') :
    Phrase g l start (.binary op a b) rest' := by
  obtain ⟨xs, rfl, hda, hea⟩ := ha
  obtain ⟨ys, rfl, hdb, heb⟩ := hb
  refine ⟨xs ++ x :: ys, by simp, ?_, ?_⟩
  · rw [List.map_append, List.map_cons]
    exact .left hg hx hj hda hdb
  · exact List.forall_mem_append.mpr ⟨hea, List.forall_mem_cons.mpr ⟨exact_of_binaryOp hx, heb⟩⟩

theorem Phrase.number {v : Binary64} (hx : x.token = .number v) (hv : v.isExactInteger = true) :
    Phrase g .factor (x :: rest) (.constant v) rest := by
  refine ⟨[x], rfl, ?_, ?_⟩
  · rw [List.map_singleton, hx]
    exact .number
  · intro y hy w hw
    cases List.mem_singleton.mp hy
    cases hx.symm.trans hw
    exact hv

theorem Phrase.group {y : Lexeme} (hx : x.token = .openParen) (hy : y.token = .closeParen)
    (h : Phrase g .expression rest t (y :: rest')) : Phrase g .factor (x :: rest) t rest' := by
  obtain ⟨xs, rfl, hd, he⟩ := h
  refine ⟨x :: xs ++ [y], by simp, ?_, ?_⟩
  · simp only [List.map_append, List.map_cons, List.map_nil, hx, hy]
    exact .group hd
  · have hopen : Exact x := exact_of_token hx fun v => nofun
    have hclose : Exact y := exact_of_token hy fun v => nofun
    exact List.forall_mem_append.mpr
      ⟨List.forall_mem_cons.mpr ⟨hopen, he⟩, List.forall_mem_singleton.mpr hclose⟩

theorem Phrase.sign {s : Sign} (hx : x.token.sign? = some s) (h : Phrase g .factor rest t rest') :
    Phrase g .factor (x :: rest) (.unary s t) rest' := by
  obtain ⟨xs, rfl, hd, he⟩ := h
  have hexact : Exact x := by
    intro v hv
    rw [hv] at hx
    cases hx
  refine ⟨x :: xs, by simp, ?_, ?_⟩
  · rw [List.map_cons]
    exact .sign hx hd
  · exact List.forall_mem_cons.mpr ⟨hexact, he⟩

end

/-! ## Soundness -/

/-- The level of what stands before an operator of level `l`: one operand, or
all of the chain so far. -/
def Grouping.before : Grouping → Level → Level
  | .right, l => l.tighter
  | .left, l => l

/-- What a run has read: a production its phrase, the rest of a chain a phrase
that starts with the operands before it. -/
def Goal.Read (g : Grouping) (c : Cursor) (t : Expr) (d : Cursor) : Goal → Prop
  | production l => Phrase g l c.ahead t d.ahead
  | chain l left =>
    l ≠ .factor → ∀ start, Phrase g (g.before l) start left c.ahead → Phrase g l start t d.ahead

theorem Phrase.before {g : Grouping} {l : Level} {start rest : List Lexeme} {t : Expr}
    (h : Phrase g l.tighter start t rest) (hl : l ≠ .factor) : Phrase g (g.before l) start t rest := by
  cases g with
  | right => exact h
  | left => exact h.operand hl

theorem Phrase.of_before {g : Grouping} {l : Level} {start rest : List Lexeme} {t : Expr}
    (h : Phrase g (g.before l) start t rest) (hl : l ≠ .factor) : Phrase g l start t rest := by
  cases g with
  | right => exact h.operand hl
  | left => exact h

theorem Parses.read {o : Options} {goal : Goal} {c d : Cursor} {t : Expr} (h : Parses o goal c t d) :
    goal.Read o.grouping c t d := by
  induction h with
  | operand hl _ _ _ iha iht => exact iht hl _ (Phrase.before iha hl)
  | stop _ => exact fun hl start hleft => hleft.of_before hl
  | right hg hx hj hp _ ih =>
    intro hl start hleft
    rw [hg] at hleft ih ⊢
    have hb : Phrase .right _ _ _ _ := ih
    rw [← hp.unread] at hb
    exact Phrase.right rfl hx hj hleft hb
  | left hg hx hj hp _ _ _ ihb iht =>
    intro hl start hleft
    rw [hg] at hleft ihb iht ⊢
    have hb : Phrase .left _ _ _ _ := ihb
    rw [Cursor.ahead_enter, ← hp.unread] at hb
    exact iht hl start (Phrase.left rfl hx hj hleft hb)
  | @number c d v _ hx hv hp =>
    show Phrase _ _ c.ahead _ _
    rw [hp.ahead_of_enter]
    exact Phrase.number hx hv
  | @group c d e f t _ hx hp _ hy hq ih =>
    have ht : Phrase _ _ d.ahead t e.ahead := ih
    rw [hq.ahead_eq] at ht
    show Phrase _ _ c.ahead _ _
    rw [hp.ahead_of_enter]
    exact Phrase.group hx hy ht
  | @sign c d e s t _ hx hp _ ih =>
    show Phrase _ _ c.ahead _ _
    rw [hp.ahead_of_enter]
    exact Phrase.sign hx ih

theorem run_parses {source : String} {o : Options} {t : Expr} {d : Cursor} (h : run source o = .ok t d) :
    ∃ b, lexemes source = b.ahead ∧ b.depth = 0 ∧ Ready b.ahead ∧ Parses o (.production .expression) b t d ∧
      (o.allowTrailing = true ∨ d.current.token = .endOfInput) := by
  have hdocument := ensures_document (c := .ofLexemes (lexemes source)) o (stream_lexemes source)
  unfold Ensures at hdocument
  unfold run at h
  rw [h] at hdocument
  obtain ⟨b, hp, ht, hend⟩ := hdocument
  exact ⟨b, hp.unread, hp.depth, hp.ready (stream_lexemes source), ht, hend⟩

theorem run_reads {source : String} {o : Options} {t : Expr} {d : Cursor} (h : run source o = .ok t d) :
    Phrase o.grouping .expression (lexemes source) t d.ahead ∧ Lexeme.Stream d.ahead ∧
      (o.allowTrailing = true ∨ d.current.token = .endOfInput) := by
  obtain ⟨b, hstart, _, hr, ht, hend⟩ := run_parses h
  rw [hstart]
  exact ⟨ht.read, (ht.stands hr).ready.1, hend⟩

end Calculator.Parse
