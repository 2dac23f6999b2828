import Calculator.CommandLine.Outcome

/-!
# The program
-/

open Calculator

def main (arguments : List String) : IO UInt32 := do
  let outcome := CommandLine.run arguments
  (← IO.getStdout).putStr outcome.stdout
  (← IO.getStderr).putStr outcome.stderr
  return outcome.exitCode
