import Calculator.Proofs.Observed

/-!
# Where the productions stop

No token that is looked at is illegal, an expression stops before a number, a
parenthesis or the end of input, and a term before anything but `*` and `/`.
Grouping to the right, a chain therefore takes at most one operator by itself,
and leaves the rest to its right operand.
-/

namespace Calculator.Parse

/-! ## What is observed -/

def Observation.Sound (g : Grouping) : Observation → Prop
  | inspected token => ∀ character, token ≠ .illegal character
  | returned .expression token =>
    (∃ value, token = .number value) ∨ token = .openParen ∨ token = .closeParen ∨ token = .endOfInput
  | returned .term token => token ≠ .star ∧ token ≠ .slash
  | returned .factor token => ∀ character, token ≠ .illegal character
  | linked taken => g = .right → taken = 0
  | folded first tree => g = .right → tree = first ∨ ∃ op right, tree = .binary op first right

section
variable {o : Options} {g : Grouping} {l : Level} {c d : Cursor}

theorem Ready.inspected (hc : Ready c.ahead) : (Observation.inspected c.current.token).Sound g := hc.2 _ rfl

theorem Stands.returned (h : Stands l c d) : (Observation.returned l d.current.token).Sound g := by
  have hlegal : ∀ character, d.current.token ≠ .illegal character := h.ready.2 _ rfl
  have hstops := h.stops
  cases l with
  | expression =>
    have hop := hstops.binaryOp?_eq_none
    cases hx : d.current.token with
    | number value => exact .inl ⟨value, rfl⟩
    | openParen => exact .inr (.inl rfl)
    | closeParen => exact .inr (.inr (.inl rfl))
    | endOfInput => exact .inr (.inr (.inr rfl))
    | illegal character => exact absurd hx (hlegal character)
    | _ => rw [hx] at hop; cases hop
  | term =>
    constructor
    · intro hx
      cases hstops .mul (by rw [hx]; rfl)
    · intro hx
      cases hstops .div (by rw [hx]; rfl)
  | factor => exact hlegal

/-- Grouping to the right, a chain joins its first operand at most once. -/
theorem Parses.folded {first tree : Expr} (h : Parses o (.chain l first) c tree d) :
    (Observation.folded first tree).Sound o.grouping := by
  intro hg
  cases h with
  | stop _ => exact .inl rfl
  | right _ _ _ _ _ => exact .inr ⟨_, _, rfl⟩
  | left hleft _ _ _ _ _ _ => cases hg.symm.trans hleft

end

/-! ## Productions under observation -/

/-- With at least `floor` levels open, `q` runs as the rules for level `l` say, and `p` is `q` with
sound observations. -/
structure Watched (o : Options) (l : Level) (floor : Nat) (p : Observed Expr) (q : Parser Expr) : Prop where
  follows : Follows o l floor q
  shows : ∀ c, Ready c.ahead → floor ≤ c.depth → Shows (Observation.Sound o.grouping) p q c

section
variable {o : Options} {l : Level} {floor : Nat} {c : Cursor} {p : Observed Expr} {q : Parser Expr}

theorem Watched.mono {floor' : Nat} (h : Watched o l floor p q) (hf : floor ≤ floor') : Watched o l floor' p q :=
  ⟨h.follows.mono hf, fun c hc hfloor => h.shows c hc (Nat.le_trans hf hfloor)⟩

theorem Watched.bind {β : Type} {f : Expr → Observed β} {k : Expr → Parser β} (h : Watched o l floor p q)
    (hc : Ready c.ahead) (hfloor : floor ≤ c.depth)
    (hf : ∀ t d, Stands l c d → Shows (Observation.Sound o.grouping) (f t) (k t) d) :
    Shows (Observation.Sound o.grouping) (p >>= f) (q >>= k) c := by
  refine (h.shows c hc hfloor).bind fun t d ht => ?_
  exact hf t d (h.follows.stands hc hfloor ht)

theorem Watched.nested (hfollows : Follows o l floor (nested o q))
    (h : ∀ c, Ready c.ahead → floor + 1 ≤ c.depth → Shows (Observation.Sound o.grouping) p q c) :
    Watched o l floor (Observed.returning l (Observed.nested o p)) (nested o q) := by
  refine ⟨hfollows, fun c hc hfloor => ?_⟩
  have hnested : Shows (Observation.Sound o.grouping) (Observed.nested o p) (Parse.nested o q) c :=
    .nested fun _ => h c.enter hc (Nat.succ_le_succ hfloor)
  exact hnested.reporting fun t d ht => (hfollows.stands hc hfloor ht).returned

end

/-! ## Chains -/

section
variable {o : Options} {l : Level} {floor : Nat} {c : Cursor} {operand sameLevel : Observed Expr}
  {operand' sameLevel' : Parser Expr}

/-- The right operand is all of the rest, so that the second test of the loop is its last. -/
theorem shows_foldChain_right (hg : o.grouping = .right) (hsame : Watched o l floor sameLevel sameLevel')
    (hfloor : floor ≤ c.depth) (hc : Ready c.ahead) (hs : l.tighter.Stops c.current.token) (bound : Nat)
    (first : Expr) :
    Shows (Observation.Sound o.grouping) (Observed.foldChain o l.joins operand sameLevel bound first 0)
      (chainUpTo o l.joins operand' sameLevel' bound first) c := by
  cases bound with
  | zero => exact shows_foldChain_zero hc.inspected first 0
  | succ bound =>
    rcases Level.stops_or_joins hs with hs | ⟨op, hx, hj⟩
    · exact shows_foldChain_of_stops hc.inspected hs _ first 0
    have hunread := hc.unread (ne_endOfInput_of_binaryOp hx)
    refine shows_link hc.inspected hx hj (fun _ => rfl) hunread (fun _ d hp => ?_) fun hleft => ?_
    · refine hsame.bind (hp.ready hunread) (hp.depth ▸ hfloor) fun b e he => ?_
      exact shows_foldChain_of_stops he.ready.inspected he.stops bound _ 1
    · cases hg.symm.trans hleft

theorem shows_foldChain_left (hg : o.grouping = .left) (hoperand : Watched o l.tighter floor operand operand')
    (bound : Nat) :
    ∀ (c : Cursor) (left : Expr) (taken : Nat), floor ≤ c.depth → Ready c.ahead →
      l.tighter.Stops c.current.token →
      Shows (Observation.Sound o.grouping) (Observed.foldChain o l.joins operand sameLevel bound left taken)
        (chainUpTo o l.joins operand' sameLevel' bound left) c := by
  induction bound with
  | zero => exact fun c left taken _ hc _ => shows_foldChain_zero hc.inspected left taken
  | succ bound ih =>
    intro c left taken hfloor hc hs
    rcases Level.stops_or_joins hs with hs | ⟨op, hx, hj⟩
    · exact shows_foldChain_of_stops hc.inspected hs _ left taken
    have hunread := hc.unread (ne_endOfInput_of_binaryOp hx)
    refine shows_link hc.inspected hx hj (fun hright => ?_) hunread (fun hright => ?_) fun _ d hp _ => ?_
    · cases hg.symm.trans hright
    · cases hg.symm.trans hright
    have hdeeper : floor ≤ d.enter.depth := by
      rw [Cursor.depth_enter, hp.depth]
      omega
    refine hoperand.bind (hp.ready hunread) hdeeper fun b e he => ?_
    -- behind an operand the loop stands as at its start, whatever it has taken
    exact ih e (.binary op left b) (taken + 1) (he.depth ▸ hdeeper) he.ready he.stops

variable (hoperand : Watched o l.tighter floor operand operand') (hsame : Watched o l floor sameLevel sameLevel')
  (hfloor : floor ≤ c.depth) (hc : Ready c.ahead)
include hoperand hsame hfloor hc

theorem shows_foldChain (hs : l.tighter.Stops c.current.token) (bound : Nat) (first : Expr) :
    Shows (Observation.Sound o.grouping) (Observed.foldChain o l.joins operand sameLevel bound first 0)
      (chainUpTo o l.joins operand' sameLevel' bound first) c := by
  cases hg : o.grouping with
  | right =>
    rw [← hg]
    exact shows_foldChain_right hg hsame hfloor hc hs bound first
  | left =>
    rw [← hg]
    exact shows_foldChain_left hg hoperand bound c first 0 hfloor hc hs

theorem shows_chain (hs : l.tighter.Stops c.current.token) (first : Expr) :
    Shows (Observation.Sound o.grouping) (Observed.chain o l.joins operand sameLevel first)
      (chain o l.joins operand' sameLevel' first) c := by
  have hloop := shows_foldChain hoperand hsame hfloor hc hs c.unread.length first
  refine Shows.reporting ⟨hloop.erases, hloop.sound⟩ fun tree d ht => ?_
  have hparses : Parses o (.chain l first) c tree d :=
    (ensures_chain hoperand.follows hsame.follows hfloor hc hs first).of_ok ht
  exact hparses.folded

theorem shows_chained :
    Shows (Observation.Sound o.grouping) (Observed.chained o l operand sameLevel)
      (operand' >>= chain o l.joins operand' sameLevel') c :=
  hoperand.bind hc hfloor fun first _ hd =>
    shows_chain hoperand hsame (hd.depth ▸ hfloor) hd.ready hd.stops first

end

/-! ## Factors -/

section
variable {o : Options} {floor levels : Nat} {c : Cursor} {p : Observed Expr} {q : Parser Expr}

theorem shows_closeParen {g : Grouping} (hc : Ready c.ahead) :
    Shows (Observation.Sound g) Observed.closeParen closeParen c := by
  refine Shows.looked hc.inspected ?_
  split
  · exact shows_step advance
  · exact shows_step _

theorem shows_group (hexpression : Watched o .expression floor p q) (hfloor : floor ≤ c.depth)
    (hunread : Lexeme.Stream c.unread) :
    Shows (Observation.Sound o.grouping)
      (do
        Observed.step advance
        let inner ← p
        Observed.closeParen
        return inner)
      (do
        advance
        let inner ← q
        closeParen
        return inner) c := by
  refine .pulled hunread fun d hp => ?_
  refine hexpression.bind (hp.ready hunread) (hp.depth ▸ hfloor) fun t e he => ?_
  exact (shows_closeParen he.ready).bind fun _ _ _ => shows_pure t

theorem shows_sign (hfactor : Watched o .factor floor p q) (hfloor : floor ≤ c.depth)
    (hunread : Lexeme.Stream c.unread) (s : Sign) :
    Shows (Observation.Sound o.grouping)
      (do
        Observed.step advance
        return Expr.unary s (← p))
      (do
        advance
        return Expr.unary s (← q)) c := by
  refine .pulled hunread fun d hp => ?_
  exact hfactor.bind (hp.ready hunread) (hp.depth ▸ hfloor) fun t _ _ => shows_pure (Expr.unary s t)

theorem watched_factor {p' : Observed Expr}
    (hexpression : Watched o .expression (floor + 1) p (expression o levels))
    (hfactor : Watched o .factor (floor + 1) p' (factor o levels))
    (hfollows : Follows o .factor floor (factor o (levels + 1))) :
    Watched o .factor floor (Observed.returning .factor <| Observed.nested o <| Observed.primary p p')
      (factor o (levels + 1)) := by
  refine Watched.nested hfollows fun c hc hfloor => ?_
  refine Shows.looked hc.inspected ?_
  cases hx : c.current.token with
  | openParen => exact shows_group hexpression hfloor (hc.unread (by rw [hx]; decide))
  | plus => exact shows_sign hfactor hfloor (hc.unread (by rw [hx]; decide)) .plus
  | minus => exact shows_sign hfactor hfloor (hc.unread (by rw [hx]; decide)) .minus
  | _ => exact shows_step _

/-! ## All productions -/

theorem watched_production (o : Options) (levels : Nat) :
    ∀ l, Watched o l (o.maxDepth - levels) (Observed.production o levels l) (production o l levels) := by
  induction levels with
  | zero =>
    intro l
    refine ⟨follows_production o 0 l, fun c _ _ => ?_⟩
    rw [production_zero]
    exact shows_step _
  | succ levels ih =>
    have hfollows := follows_production o (levels + 1)
    have hdeeper : ∀ l, Watched o l (o.maxDepth - (levels + 1) + 1) (Observed.production o levels l)
        (production o l levels) := fun l => (ih l).mono (by omega)
    intro l
    cases l with
    | expression =>
      exact .nested (hfollows .expression) fun c hc hfloor =>
        shows_chained (hdeeper .term) (hdeeper .expression) hfloor hc
    | term =>
      exact .nested (hfollows .term) fun c hc hfloor => shows_chained (hdeeper .factor) (hdeeper .term) hfloor hc
    | factor => exact watched_factor (hdeeper .expression) (hdeeper .factor) (hfollows .factor)

/-! ## Whole sources -/

theorem shows_document (o : Options) (hc : Lexeme.Stream c.unread) :
    Shows (Observation.Sound o.grouping) (Observed.document o) (document o) c := by
  refine .pulled hc fun b hb => ?_
  refine (watched_production o o.maxDepth .expression).bind (hb.ready hc) (by omega) fun t d hd => ?_
  refine .looked hd.ready.inspected ?_
  dsimp only
  split
  · exact shows_pure t
  · exact shows_step _

/-- The observed run is the run. No production in it looks at an illegal character, each stops before a
token that cannot go on with it, and a chain that groups to the right takes at most one operator in each
call: the tree it returns is its first operand, or joins that to the rest. -/
theorem stops_at_lookahead (source : String) (o : Options) :
    (Observed.run source o).1 = run source o ∧
      ∀ x ∈ (Observed.run source o).2, x.Sound o.grouping := by
  have hrun := shows_document (c := .ofLexemes (lexemes source)) o (stream_lexemes source)
  exact ⟨hrun.erases, hrun.sound⟩

/-- Two operators of one level, and more of them in a group. -/
theorem stops_at_lookahead_group :
    (Observed.run "1-(2-3)-4" ⟨.right, false, 16⟩).1 = run "1-(2-3)-4" ⟨.right, false, 16⟩ ∧
      Observation.linked 0 ∈ (Observed.run "1-(2-3)-4" ⟨.right, false, 16⟩).2 ∧
      Observation.linked 1 ∉ (Observed.run "1-(2-3)-4" ⟨.right, false, 16⟩).2 ∧
      Observation.returned .expression .closeParen ∈ (Observed.run "1-(2-3)-4" ⟨.right, false, 16⟩).2 := by
  have h := stops_at_lookahead "1-(2-3)-4" ⟨.right, false, 16⟩
  refine ⟨h.1, by decide +kernel, fun hmem => ?_, by decide +kernel⟩
  cases h.2 _ hmem rfl

/-- Grouping to the left, the loop goes on. -/
example : Observation.linked 1 ∈ (Observed.run "1-(2-3)-4" ⟨.left, false, 16⟩).2 := by decide +kernel

end

end Calculator.Parse
