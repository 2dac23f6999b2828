import Calculator.Proofs.Adequacy

/-!
# The parser under observation

The productions once more, with a list of what happens at the lookahead: each
token that is looked at, the token behind each production that returns, and of
each chain the operators that its loop takes and the tree that it returns.
`Shows` compares it with the parser and says what all observations have in
common.
-/

namespace Calculator.Parse

inductive Observation where
  /-- A production, or the loop of a chain, looks at this token. -/
  | inspected (token : Token)
  /-- A production returns a tree, and this token is the lookahead. -/
  | returned (l : Level) (token : Token)
  /-- The loop of a chain takes an operator, after `taken` others in the same call. -/
  | linked (taken : Nat)
  /-- A chain that started with `first` returns `tree`. -/
  | folded (first tree : Expr)
  deriving DecidableEq

/-- A parser and what is observed of it, in order. -/
def Observed (α : Type) : Type := Cursor → EStateM.Result Error Cursor α × List Observation

namespace Observed

instance : Monad Observed where
  pure a := fun c => (.ok a c, [])
  bind p f := fun c =>
    match p c with
    | (.ok a d, seen) =>
      let (r, more) := f a d
      (r, seen ++ more)
    | (.error e d, seen) => (.error e d, seen)

def step {α : Type} (p : Parser α) : Observed α := fun c => (p c, [])

def note (x : Observation) : Observed Unit := fun c => (.ok () c, [x])

/-- Observes a result, and where it leaves the parser. -/
def reporting {α : Type} (report : α → Cursor → Observation) (p : Observed α) : Observed α := fun c =>
  match p c with
  | (.ok a d, seen) => (.ok a d, seen ++ [report a d])
  | (.error e d, seen) => (.error e d, seen)

def look : Observed Lexeme := reporting (fun x _ => .inspected x.token) (step current)

def returning (l : Level) (p : Observed Expr) : Observed Expr :=
  reporting (fun _ d => .returned l d.current.token) p

def nested {α : Type} (o : Options) (p : Observed α) : Observed α := fun c =>
  if o.maxDepth ≤ c.depth then (tooDeep o c, [])
  else
    match p c.enter with
    | (.ok a d, seen) => (.ok a d.leave, seen)
    | (.error e d, seen) => (.error e d.leave, seen)

/-! ## Chains of operators -/

/-- The test of the loop is made once more where its bound is used up. -/
def foldChain (o : Options) (accepts : BinaryOp → Bool) (operand sameLevel : Observed Expr) :
    (bound : Nat) → (left : Expr) → (taken : Nat) → Observed Expr
  | 0, left, _ => do
    let _ ← look
    return left
  | bound + 1, left, taken => do
    match (← look).token.binaryOp? with
    | none => return left
    | some op =>
      if accepts op then
        note (.linked taken)
        step advance
        match o.grouping with
        | .right =>
          let right ← sameLevel
          foldChain o accepts operand sameLevel bound (.binary op left right) (taken + 1)
        | .left =>
          nested o do
            let right ← operand
            foldChain o accepts operand sameLevel bound (.binary op left right) (taken + 1)
      else return left

def chain (o : Options) (accepts : BinaryOp → Bool) (operand sameLevel : Observed Expr) (left : Expr) :
    Observed Expr :=
  reporting (fun tree _ => .folded left tree) fun c =>
    foldChain o accepts operand sameLevel c.unread.length left 0 c

/-! ## Productions -/

def closeParen : Observed Unit := do
  if (← look).token = .closeParen then step advance
  else step (fail .expectedClosingParen)

def chained (o : Options) (l : Level) (operand sameLevel : Observed Expr) : Observed Expr := do
  let left ← operand
  chain o l.joins operand sameLevel left

def primary (expression factor : Observed Expr) : Observed Expr := do
  match (← look).token with
  | .number value => step (literal value)
  | .openParen =>
    step advance
    let inner ← expression
    closeParen
    return inner
  | .plus =>
    step advance
    return .unary .plus (← factor)
  | .minus =>
    step advance
    return .unary .minus (← factor)
  | .endOfInput => step (fail .unexpectedEndOfInput)
  | token => step (fail (.unexpectedToken token.describe))

def production (o : Options) : (levels : Nat) → Level → Observed Expr
  | 0, _ => step (tooDeep o)
  | levels + 1, .expression =>
    returning .expression <| nested o <|
      chained o .expression (production o levels .term) (production o levels .expression)
  | levels + 1, .term =>
    returning .term <| nested o <|
      chained o .term (production o levels .factor) (production o levels .term)
  | levels + 1, .factor =>
    returning .factor <| nested o <|
      primary (production o levels .expression) (production o levels .factor)

/-! ## Whole sources -/

def document (o : Options) : Observed Expr := do
  step advance
  let tree ← production o o.maxDepth .expression
  let next := (← look).token
  if o.allowTrailing || next = .endOfInput then return tree
  else step (fail (.unexpectedTrailingTokens next.describe))

def run (source : String) (o : Options) : EStateM.Result Error Cursor Expr × List Observation :=
  document o (Cursor.ofLexemes (lexemes source))

end Observed

/-! ## Against the parser -/

/-- From `c`, `p` ends as the parser `q` does, and `sound` holds of all that is observed. -/
structure Shows {α : Type} (sound : Observation → Prop) (p : Observed α) (q : Parser α) (c : Cursor) : Prop where
  erases : (p c).1 = q c
  sound : ∀ x ∈ (p c).2, sound x

section
variable {α β : Type} {o : Options} {sound : Observation → Prop} {p : Observed α} {q : Parser α}
  {f : α → Observed β} {k : α → Parser β} {c : Cursor}

theorem shows_step (q : Parser α) : Shows sound (Observed.step q) q c := ⟨rfl, List.forall_mem_nil _⟩

theorem shows_pure (a : α) : Shows sound (pure a) (pure a) c := ⟨rfl, List.forall_mem_nil _⟩

theorem Observed.bind_ok {a : α} {d : Cursor} (h : (p c).1 = .ok a d) :
    (p >>= f) c = ((f a d).1, (p c).2 ++ (f a d).2) := by
  have hp : p c = (.ok a d, (p c).2) := Prod.ext h rfl
  simp only [bind]
  rw [hp]

theorem Observed.bind_error {e : Error} {d : Cursor} (h : (p c).1 = .error e d) :
    (p >>= f) c = (.error e d, (p c).2) := by
  have hp : p c = (.error e d, (p c).2) := Prod.ext h rfl
  simp only [bind]
  rw [hp]

theorem Shows.bind (hp : Shows sound p q c) (hf : ∀ a d, q c = .ok a d → Shows sound (f a) (k a) d) :
    Shows sound (p >>= f) (q >>= k) c := by
  cases hq : q c with
  | ok a d =>
    have ha := hf a d hq
    have hk : (q >>= k) c = k a d := by simp [Bind.bind, EStateM.bind, hq]
    constructor
    · rw [Observed.bind_ok (hp.erases.trans hq), hk, ha.erases]
    · rw [Observed.bind_ok (hp.erases.trans hq)]
      exact List.forall_mem_append.mpr ⟨hp.sound, ha.sound⟩
  | error e d =>
    have hk : (q >>= k) c = .error e d := by simp [Bind.bind, EStateM.bind, hq]
    constructor
    · rw [Observed.bind_error (hp.erases.trans hq), hk]
    · rw [Observed.bind_error (hp.erases.trans hq)]
      exact hp.sound

theorem Shows.reporting {report : α → Cursor → Observation} (hp : Shows sound p q c)
    (h : ∀ a d, q c = .ok a d → sound (report a d)) : Shows sound (Observed.reporting report p) q c := by
  obtain ⟨herases, hsound⟩ := hp
  unfold Observed.reporting
  constructor
  · split
    · next hp => rw [← herases, hp]
    · next hp => rw [← herases, hp]
  · split
    · next a d seen hp =>
      rw [hp] at herases hsound
      exact List.forall_mem_append.mpr ⟨hsound, List.forall_mem_singleton.mpr (h a d herases.symm)⟩
    · next hp =>
      rw [hp] at hsound
      exact hsound

theorem Shows.nested (h : c.depth < o.maxDepth → Shows sound p q c.enter) :
    Shows sound (Observed.nested o p) (nested o q) c := by
  by_cases hdeep : o.maxDepth ≤ c.depth
  · constructor
    · simp [Observed.nested, Parse.nested, hdeep]
    · simp [Observed.nested, hdeep]
  · obtain ⟨herases, hsound⟩ := h (Nat.lt_of_not_le hdeep)
    have herases' : (p c.enter).1 = q { c with depth := c.depth + 1 } := herases
    have hnested : Parse.nested o q c = _ := if_neg hdeep
    have hobserved : Observed.nested o p c = (Parse.nested o q c, (p c.enter).2) := by
      rw [hnested, ← herases']
      refine (if_neg hdeep).trans ?_
      cases p c.enter with
      | mk r seen => cases r <;> rfl
    constructor
    · rw [hobserved]
    · rw [hobserved]
      exact hsound

/-! ## Steps of the productions -/

theorem Shows.noted {x : Observation} (hx : sound x) (hp : Shows sound p q c) :
    Shows sound (Observed.note x >>= fun _ => p) q c := by
  have hrun : (Observed.note x >>= fun _ => p) c = ((p c).1, x :: (p c).2) := rfl
  constructor
  · rw [hrun, hp.erases]
  · rw [hrun]
    exact List.forall_mem_cons.mpr ⟨hx, hp.sound⟩

theorem Shows.looked {f : Lexeme → Observed β} {k : Lexeme → Parser β} (hc : sound (.inspected c.current.token))
    (hf : Shows sound (f c.current) (k c.current) c) : Shows sound (Observed.look >>= f) (current >>= k) c := by
  have hlook : Shows sound Observed.look current c := by
    refine (shows_step current).reporting fun x d hx => ?_
    cases hx
    exact hc
  refine hlook.bind fun x d hx => ?_
  cases hx
  exact hf

theorem Shows.pulled {f : Unit → Observed β} {k : Unit → Parser β} (hc : Lexeme.Stream c.unread)
    (hf : ∀ d, c.Pulls d → Shows sound (f ()) (k ()) d) :
    Shows sound (Observed.step advance >>= f) (advance >>= k) c :=
  (shows_step advance).bind fun _ d hd => hf d ((ensures_advance hc).of_ok hd)

end

/-! ## Steps of a chain -/

section
variable {o : Options} {sound : Observation → Prop} {l : Level} {operand sameLevel : Observed Expr}
  {operand' sameLevel' : Parser Expr} {c : Cursor}

theorem shows_foldChain_zero (hc : sound (.inspected c.current.token)) (left : Expr) (taken : Nat) :
    Shows sound (Observed.foldChain o l.joins operand sameLevel 0 left taken)
      (chainUpTo o l.joins operand' sameLevel' 0 left) c := by
  show Shows sound _ (current >>= fun _ => pure left) c
  exact .looked hc (shows_pure left)

/-- The loop ends where its level does. -/
theorem shows_foldChain_of_stops (hc : sound (.inspected c.current.token)) (hs : l.Stops c.current.token)
    (bound : Nat) (left : Expr) (taken : Nat) :
    Shows sound (Observed.foldChain o l.joins operand sameLevel bound left taken)
      (chainUpTo o l.joins operand' sameLevel' bound left) c := by
  cases bound with
  | zero => exact shows_foldChain_zero hc left taken
  | succ bound =>
    refine Shows.looked hc ?_
    cases hx : c.current.token.binaryOp? with
    | none => exact shows_pure left
    | some op =>
      have hj : ¬ l.joins op = true := Bool.eq_false_iff.mp (hs.joins_eq_false hx)
      dsimp only
      rw [if_neg hj, if_neg hj]
      exact shows_pure left

theorem shows_link {op : BinaryOp} {bound taken : Nat} {left : Expr} (hc : sound (.inspected c.current.token))
    (hx : c.current.token.binaryOp? = some op) (hj : l.joins op = true) (htaken : sound (.linked taken))
    (hunread : Lexeme.Stream c.unread)
    (hright : o.grouping = .right → ∀ d, c.Pulls d → Shows sound
      (sameLevel >>= fun b => Observed.foldChain o l.joins operand sameLevel bound (.binary op left b) (taken + 1))
      (sameLevel' >>= fun b => chainUpTo o l.joins operand' sameLevel' bound (.binary op left b)) d)
    (hleft : o.grouping = .left → ∀ d, c.Pulls d → d.depth < o.maxDepth → Shows sound
      (operand >>= fun b => Observed.foldChain o l.joins operand sameLevel bound (.binary op left b) (taken + 1))
      (operand' >>= fun b => chainUpTo o l.joins operand' sameLevel' bound (.binary op left b)) d.enter) :
    Shows sound (Observed.foldChain o l.joins operand sameLevel (bound + 1) left taken)
      (chainUpTo o l.joins operand' sameLevel' (bound + 1) left) c := by
  refine Shows.looked hc ?_
  rw [hx]
  dsimp only
  rw [if_pos hj, if_pos hj]
  refine .noted htaken (.pulled hunread fun d hd => ?_)
  cases hg : o.grouping with
  | right => exact hright hg d hd
  | left => exact .nested fun hlt => hleft hg d hd hlt

end

end Calculator.Parse
