import Calculator.Parse.Grammar

/-!
# The parser on a counter of 64 bits

The same productions with the depth as a machine word: a step that would leave
the word is a fault. A chain that groups to the left counts the levels it has
claimed and gives them back all at once when it ends. Every value of the depth
is recorded, and of every call the depth on entry and on return.
-/

namespace Calculator.Parse

/-- A step of the counter that has no result. -/
inductive Fault where
  | overflow | underflow
  deriving DecidableEq

inductive Routine where
  | expression | term | factor | chain | nested
  deriving DecidableEq

inductive Event where
  /-- The depth was set to this value. -/
  | moved (depth : Nat)
  | returned (routine : Routine) (entry exit : Nat)
  deriving DecidableEq

/-- A cursor and its record, the latest event first. -/
structure Gauge where
  cursor : Cursor
  events : List Event

/-- A fault ends everything. An error of the parser is a result like any other. -/
abbrev Counted := ExceptT Error (StateT Gauge (Except Fault))

namespace Counted

def fault {α : Type} (f : Fault) : Counted α := fun _ => .error f

/-- A step of the parser that leaves the depth alone. -/
def step {α : Type} (p : Parser α) : Counted α := fun g =>
  match p g.cursor with
  | .ok a c => .ok (.ok a, { g with cursor := c })
  | .error e c => .ok (.error e, { g with cursor := c })

/-- Runs to the end, whether or not that is an error. -/
def attempt {α : Type} (p : Counted α) : Counted (Except Error α) := ExceptT.lift p.run

/-- Ends as told. -/
def settle {α : Type} (result : Except Error α) : Counted α := ExceptT.mk (pure result)

/-- Where the run stands. -/
def here : Counted Cursor := fun g => .ok (.ok g.cursor, g)

def note (x : Event) : Counted Unit := fun g => .ok (.ok (), { g with events := x :: g.events })

/-! ## The counter -/

/-- The number of values of a word. -/
def wordLimit : Nat := 2 ^ 64

def setDepth (depth : Nat) : Counted Unit := fun g =>
  .ok (.ok (), ⟨{ g.cursor with depth := depth }, .moved depth :: g.events⟩)

/-- Claims one more level. -/
def enter (o : Options) : Counted Unit := do
  let depth := (← here).depth
  if o.maxDepth ≤ depth then step (tooDeep o)
  else if depth + 1 < wordLimit then setDepth (depth + 1)
  else fault .overflow

/-- Releases levels that were claimed. -/
def leave (levels : Nat) : Counted Unit := do
  let depth := (← here).depth
  if levels ≤ depth then setDepth (depth - levels)
  else fault .underflow

def recorded {α : Type} (routine : Routine) (p : Counted α) : Counted α := do
  let entry ← here
  let result ← attempt p
  let exit ← here
  note (.returned routine entry.depth exit.depth)
  settle result

def nested {α : Type} (o : Options) (p : Counted α) : Counted α := recorded .nested do
  enter o
  let result ← attempt p
  leave 1
  settle result

/-! ## Chains of operators -/

/-- Goes on unless `p` fails, and then stops with the levels that are open. -/
def orStop {α : Type} (p : Counted α) (folds : Nat) (next : α → Counted (Except Error Expr × Nat)) :
    Counted (Except Error Expr × Nat) := do
  match ← attempt p with
  | .ok a => next a
  | .error e => return (.error e, folds)

/-- How a chain ends, and how many levels it has claimed and not released. -/
def foldChain (o : Options) (accepts : BinaryOp → Bool) (operand sameLevel : Counted Expr) :
    (bound : Nat) → (left : Expr) → (folds : Nat) → Counted (Except Error Expr × Nat)
  | 0, left, folds => return (.ok left, folds)
  | bound + 1, left, folds => do
    match (← step current).token.binaryOp? with
    | none => return (.ok left, folds)
    | some op =>
      if accepts op then
        orStop (step advance) folds fun _ =>
          match o.grouping with
          | .right =>
            orStop sameLevel folds fun right =>
              foldChain o accepts operand sameLevel bound (.binary op left right) folds
          | .left =>
            orStop (enter o) folds fun _ =>
              orStop operand (folds + 1) fun right =>
                foldChain o accepts operand sameLevel bound (.binary op left right) (folds + 1)
      else return (.ok left, folds)

def chain (o : Options) (accepts : BinaryOp → Bool) (operand sameLevel : Counted Expr) (left : Expr) :
    Counted Expr := recorded .chain do
  let bound := (← here).unread.length
  let (result, folds) ← foldChain o accepts operand sameLevel bound left 0
  leave folds
  settle result

/-! ## Productions -/

mutual

def expression (o : Options) : (levels : Nat) → Counted Expr
  | 0 => recorded .expression <| nested o (step (tooDeep o))
  | levels + 1 => recorded .expression <| nested o do
      let left ← term o levels
      chain o BinaryOp.isAdditive (term o levels) (expression o levels) left

def term (o : Options) : (levels : Nat) → Counted Expr
  | 0 => recorded .term <| nested o (step (tooDeep o))
  | levels + 1 => recorded .term <| nested o do
      let left ← factor o levels
      chain o BinaryOp.isMultiplicative (factor o levels) (term o levels) left

def factor (o : Options) : (levels : Nat) → Counted Expr
  | 0 => recorded .factor <| nested o (step (tooDeep o))
  | levels + 1 => recorded .factor <| nested o do
      match (← step current).token with
      | .number value => step (literal value)
      | .openParen =>
        step advance
        let inner ← expression o levels
        step closeParen
        return inner
      | .plus =>
        step advance
        return .unary .plus (← factor o levels)
      | .minus =>
        step advance
        return .unary .minus (← factor o levels)
      | .endOfInput => step (fail .unexpectedEndOfInput)
      | token => step (fail (.unexpectedToken token.describe))

end

/-! ## Whole sources -/

def document (o : Options) : Counted Expr := do
  step advance
  let tree ← expression o o.maxDepth
  let next := (← step current).token
  if o.allowTrailing || next = .endOfInput then return tree
  else step (fail (.unexpectedTrailingTokens next.describe))

def run (source : String) (o : Options) : Except Fault (Except Error Expr × Gauge) :=
  document o ⟨Cursor.ofLexemes (lexemes source), []⟩

end Counted

end Calculator.Parse
