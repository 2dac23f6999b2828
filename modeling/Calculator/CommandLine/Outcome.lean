import Calculator.CommandLine.Arguments
import Calculator.CommandLine.Help
import Calculator.Report

/-!
# Outcome of a run

Results and help go to standard output with exit code 0, failures of the
expression to standard error with 1, and faulty arguments exit with 2.
-/

namespace Calculator.CommandLine

structure Outcome where
  exitCode : UInt32
  stdout : String
  stderr : String
  deriving DecidableEq

namespace Outcome

def success (text : String) : Outcome := ⟨0, text, ""⟩

def ofStop : Stop → Outcome
  | .usageError => ⟨2, "", usageLine ++ "\n"⟩
  | .shortHelp => success CommandLine.shortHelp
  | .longHelp => success CommandLine.longHelp
  | .version => success versionText

def ofReport (report : Report) : Output → Outcome
  | .report => success (report.text ++ "\n")
  | .single .tree => success (report.tree.toText ++ "\n")
  | .single .stack => success (report.stack.toText ++ "\n")
  | .single .reversePolish => success (report.postfixText ++ "\n")

def ofRequest (request : Request) : Outcome :=
  match Report.ofSource request.source request.options with
  | .ok report => ofReport report request.output
  | .error failure => ⟨1, "", failure.message ++ "\n"⟩

end Outcome

def run (arguments : List String) : Outcome :=
  match Request.ofArguments arguments with
  | .ok request => .ofRequest request
  | .error stop => .ofStop stop

end Calculator.CommandLine
