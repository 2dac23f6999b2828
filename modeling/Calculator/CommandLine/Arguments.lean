import Calculator.Binary64.Decimal
import Calculator.Parse.Options

/-!
# Arguments of the command line

`Arguments.read` goes from left to right and stops at the first fault or
request for help. No option may be given twice. What is no option is the
expression, even if it starts with a hyphen.
-/

namespace Calculator.CommandLine

/-! ## Options -/

inductive Strategy where
  | tree | stack | reversePolish
  deriving DecidableEq

def Strategy.ofName? : String → Option Strategy
  | "tree" => some .tree
  | "stack" => some .stack
  | "postfix" => some .reversePolish
  | _ => none

/-- A whole number below `2 ^ 64` in ASCII digits, with an optional plus sign. -/
def wordNumber? (text : String) : Option Nat :=
  let run := match text.toList with
    | '+' :: run => run
    | run => run
  let n := Decimal.runValue run
  if !run.isEmpty && run.all Char.isDigit && n < 2 ^ 64 then some n else none

inductive OptionName where
  | all | strategy | leftAssoc | allowTrailing | maxDepth
  | shortHelp | longHelp | version
  deriving DecidableEq

namespace OptionName

def ofLong? : String → Option OptionName
  | "--all" => some all
  | "--strategy" => some strategy
  | "--left-assoc" => some leftAssoc
  | "--allow-trailing" => some allowTrailing
  | "--max-depth" => some maxDepth
  | "--help" => some longHelp
  | "--version" => some version
  | _ => none

def ofShort? : String → Option OptionName
  | "-a" => some all
  | "-s" => some strategy
  | "-h" => some shortHelp
  | "-V" => some version
  | _ => none

def takesValue : OptionName → Bool
  | strategy | maxDepth => true
  | _ => false

/-- A long option with its value behind the first equals sign. -/
def attached? (argument : String) : Option (OptionName × String) :=
  match argument.toList.span (· ≠ '=') with
  | (name, '=' :: value) => (ofLong? (String.ofList name)).map fun o => (o, String.ofList value)
  | _ => none

end OptionName

/-! ## Reading -/

/-- Why the arguments do not ask for an evaluation. -/
inductive Stop where
  | usageError | shortHelp | longHelp | version
  deriving DecidableEq

structure Arguments where
  all : Bool := false
  strategy : Option Strategy := none
  leftAssoc : Bool := false
  allowTrailing : Bool := false
  maxDepth : Option Nat := none
  expression : Option String := none
  deriving DecidableEq

namespace Arguments

def setFlag (a : Arguments) : OptionName → Except Stop Arguments
  | .all => if a.all then .error .usageError else .ok { a with all := true }
  | .leftAssoc => if a.leftAssoc then .error .usageError else .ok { a with leftAssoc := true }
  | .allowTrailing =>
    if a.allowTrailing then .error .usageError else .ok { a with allowTrailing := true }
  | .shortHelp => .error .shortHelp
  | .longHelp => .error .longHelp
  | .version => .error .version
  | .strategy | .maxDepth => .error .usageError

def setValue (a : Arguments) (value : String) : OptionName → Except Stop Arguments
  | .strategy =>
    match a.strategy, Strategy.ofName? value with
    | none, some s => .ok { a with strategy := some s }
    | _, _ => .error .usageError
  | .maxDepth =>
    match a.maxDepth, wordNumber? value with
    | none, some n => .ok { a with maxDepth := some n }
    | _, _ => .error .usageError
  | _ => .error .usageError

def setExpression (a : Arguments) (text : String) : Except Stop Arguments :=
  if a.expression.isSome then .error .usageError else .ok { a with expression := some text }

/-- Behind `--` no argument is an option. -/
def read (a : Arguments) : List String → Except Stop Arguments
  | [] => .ok a
  | "--" :: rest => rest.foldlM setExpression a
  | argument :: rest =>
    match (OptionName.ofLong? argument).or (OptionName.ofShort? argument) with
    | some name =>
      if name.takesValue then
        match rest with
        | [] => .error .usageError
        | value :: rest => do read (← a.setValue value name) rest
      else do read (← a.setFlag name) rest
    | none =>
      match OptionName.attached? argument with
      | some (name, value) => do read (← a.setValue value name) rest
      | none => do read (← a.setExpression argument) rest

end Arguments

/-! ## Requests -/

inductive Output where
  | report
  | single (strategy : Strategy)
  deriving DecidableEq

/-- An expression to evaluate and what to print of it. -/
structure Request where
  source : String
  options : Parse.Options
  output : Output
  deriving DecidableEq

/-- The whole report and a single strategy exclude each other. -/
def Arguments.request (a : Arguments) : Except Stop Request :=
  if a.all && a.strategy.isSome then .error .usageError
  else
    match a.expression with
    | none => .error .usageError
    | some source =>
      let defaults : Parse.Options := {}
      .ok {
        source
        options := {
          grouping := if a.leftAssoc then .left else .right
          allowTrailing := a.allowTrailing
          maxDepth := a.maxDepth.getD defaults.maxDepth }
        output := if a.all then .report else .single (a.strategy.getD .tree) }

def Request.ofArguments (arguments : List String) : Except Stop Request := do
  (← Arguments.read {} arguments).request

end Calculator.CommandLine
