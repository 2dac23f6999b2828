import Calculator.Token

/-!
# Lexemes of a source text

`scan` takes the next lexeme off the front of the characters: a run of ASCII
digits as long as possible, or one character. Spaces and tabs before it are
skipped. `lexemes` repeats it up to the end of input, which every further
scan gives again. Spans count bytes of UTF-8.
-/

namespace Calculator

/-- A token with its text and the bytes from `start` up to `stop` that it covers. -/
structure Lexeme where
  token : Token
  text : String
  start : Nat
  stop : Nat
  deriving DecidableEq

namespace Lexeme

/-- The end of input at the given byte. -/
def endAt (position : Nat) : Lexeme := ⟨.endOfInput, "", position, position⟩

/-! ## One lexeme -/

def isBlank (c : Char) : Bool := c = ' ' || c = '\t'

/-- The token of a single character that is neither a blank nor a digit. -/
def tokenOf (c : Char) : Token :=
  if c = '+' then .plus
  else if c = '-' then .minus
  else if c = '*' then .star
  else if c = '/' then .slash
  else if c = '(' then .openParen
  else if c = ')' then .closeParen
  else .illegal c

/-- A run of digits; a long one stands for the nearest double. -/
def ofDigits (position : Nat) (run : List Char) : Lexeme :=
  ⟨.number (Binary64.ofNat (Decimal.runValue run)), String.ofList run, position,
    position + run.length⟩

/-- The first lexeme of the characters that start at byte `position`, and the
characters behind it. -/
def scan (position : Nat) : List Char → Lexeme × List Char
  | [] => (endAt position, [])
  | c :: rest =>
    if isBlank c then scan (position + 1) rest
    else if c.isDigit then
      (ofDigits position (c :: rest.takeWhile Char.isDigit), rest.dropWhile Char.isDigit)
    else (⟨tokenOf c, String.singleton c, position, position + c.utf8Size⟩, rest)

theorem length_scan_lt {position : Nat} {chars : List Char}
    (h : (scan position chars).1.token ≠ .endOfInput) :
    (scan position chars).2.length < chars.length := by
  induction chars generalizing position with
  | nil => exact absurd rfl h
  | cons c rest ih =>
    unfold scan at h ⊢
    split
    · next hb =>
      rw [if_pos hb] at h
      exact Nat.lt_succ_of_lt (ih h)
    · split
      · exact Nat.lt_succ_of_le (List.dropWhile_sublist _).length_le
      · exact Nat.lt_succ_self _

/-! ## All lexemes -/

def scanAll (position : Nat) (chars : List Char) : List Lexeme :=
  let next := scan position chars
  if _ : next.1.token = .endOfInput then [next.1]
  else next.1 :: scanAll next.1.stop next.2
termination_by chars.length
decreasing_by exact length_scan_lt ‹_›

end Lexeme

/-- The lexemes of a source text, the end of input last. -/
def lexemes (source : String) : List Lexeme := Lexeme.scanAll 0 source.toList

/-! ## One at a time -/

/-- A reading position: the latest lexeme and the characters behind it. -/
structure Lexer where
  latest : Lexeme
  rest : List Char

namespace Lexer

/-- At the start the latest lexeme is empty. -/
def ofSource (source : String) : Lexer := ⟨Lexeme.endAt 0, source.toList⟩

def next (lexer : Lexer) : Lexer :=
  let (lexeme, rest) := Lexeme.scan lexer.latest.stop lexer.rest
  ⟨lexeme, rest⟩

end Lexer

end Calculator
