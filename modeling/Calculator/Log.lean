import Calculator.Report
import Calculator.Text.Quoted

/-!
# Log records

One record for every lexeme that the parser pulls, one for its tree and one
for a finished report.
-/

namespace Calculator.Log

inductive Level where
  | trace | debug
  deriving DecidableEq

structure Record where
  level : Level
  text : String
  deriving DecidableEq

def ofLexeme (lexeme : Lexeme) : Record :=
  ⟨.trace, "token " ++ lexeme.token.describe ++ " at " ++ toString lexeme.start⟩

def ofExpr (e : Expr) : Record := ⟨.debug, "parsed expression " ++ e.infixText⟩

def ofReport (source : String) (report : Report) : Record :=
  ⟨.debug, Text.quote source ++ " => tree " ++ report.tree.toText ++ ", stack " ++ report.stack.toText⟩

def parsing (source : String) (options : Parse.Options) : List Record :=
  match Parse.run source options with
  | .ok tree cursor => cursor.pulled.reverse.map ofLexeme ++ [ofExpr tree]
  | .error _ cursor => cursor.pulled.reverse.map ofLexeme

def reporting (source : String) (options : Parse.Options) : List Record :=
  match Report.ofSource source options with
  | .ok report => parsing source options ++ [ofReport source report]
  | .error _ => parsing source options

end Calculator.Log
