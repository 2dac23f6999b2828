import Calculator.Lexeme
import Calculator.Parse.Error
import Calculator.Parse.Options

/-!
# The parser's cursor

A parser runs over a cursor with one lexeme of lookahead, a record of the
lexemes pulled so far and the number of open levels. The cursor outlives an
error, so that what was read up to it can be told.
-/

namespace Calculator.Parse

structure Cursor where
  /-- The lookahead. It is never illegal. -/
  current : Lexeme
  unread : List Lexeme
  /-- Every lexeme taken off `unread`, the latest first. -/
  pulled : List Lexeme
  depth : Nat

/-- Before the first lexeme, with nothing open. -/
def Cursor.ofLexemes (unread : List Lexeme) : Cursor := ⟨Lexeme.endAt 0, unread, [], 0⟩

abbrev Parser := EStateM Error Cursor

/-! ## Lookahead -/

def current : Parser Lexeme := fun c => .ok c.current c

def fail {α : Type} (cause : Cause) : Parser α := fun c => .error ⟨c.current.start, cause⟩ c

/-- Pulls one lexeme into the lookahead; an illegal character is an error as
soon as it is read. Nothing follows the end of input but itself. -/
def advance : Parser Unit := fun c =>
  match c.unread with
  | [] => .ok () { c with pulled := c.current :: c.pulled }
  | x :: rest =>
    match x.token with
    | .illegal character =>
      .error ⟨x.start, .illegalCharacter character⟩ { c with unread := rest, pulled := x :: c.pulled }
    | _ => .ok () { c with current := x, unread := rest, pulled := x :: c.pulled }

/-! ## Levels -/

def tooDeep {α : Type} (options : Options) : Parser α := fail (.nestingTooDeep options.maxDepth)

/-- Runs a production one level deeper, and closes the level whether or not
it succeeds. -/
def nested {α : Type} (options : Options) (production : Parser α) : Parser α := fun c =>
  if options.maxDepth ≤ c.depth then tooDeep options c
  else
    match production { c with depth := c.depth + 1 } with
    | .ok a c => .ok a { c with depth := c.depth - 1 }
    | .error e c => .error e { c with depth := c.depth - 1 }

end Calculator.Parse
