/-!
# Help texts of the command line
-/

namespace Calculator.CommandLine

def unlines (lines : List String) : String := String.join (lines.map fun line => line ++ "\n")

def about : String :=
  "Recursive-descent arithmetic expression parser with tree, stack and postfix evaluators"

def usageLine : String := "Usage: rdcalc [OPTIONS] <EXPRESSION>"

def versionText : String := "rdcalc 0.1.0\n"

def shortHelp : String := unlines [
  about,
  "",
  usageLine,
  "",
  "Arguments:",
  "  <EXPRESSION>  The expression to evaluate, e.g. \"(2+3)*4\"",
  "",
  "Options:",
  "  -a, --all                    Print the tree result, the postfix sequence and the stack result on three lines",
  "  -s, --strategy <STRATEGY>    Print the output of a single strategy [default: tree] [possible values: tree, stack, postfix]",
  "      --left-assoc             Group chained operators from the left, so `1-2-3` is `-4`",
  "      --allow-trailing         Ignore tokens after a complete expression instead of failing",
  "      --max-depth <MAX_DEPTH>  Maximum parser recursion depth [default: 512]",
  "  -h, --help                   Print help (see more with '--help')",
  "  -V, --version                Print version"]

def longHelp : String := unlines [
  about,
  "",
  usageLine,
  "",
  "Arguments:",
  "  <EXPRESSION>",
  "          The expression to evaluate, e.g. \"(2+3)*4\"",
  "",
  "Options:",
  "  -a, --all",
  "          Print the tree result, the postfix sequence and the stack result on three lines",
  "",
  "  -s, --strategy <STRATEGY>",
  "          Print the output of a single strategy",
  "",
  "          Possible values:",
  "          - tree:    Recursive tree evaluation",
  "          - stack:   Explicit-stack evaluation",
  "          - postfix: Postfix (reverse-Polish) rendering",
  "          ",
  "          [default: tree]",
  "",
  "      --left-assoc",
  "          Group chained operators from the left, so `1-2-3` is `-4`",
  "",
  "      --allow-trailing",
  "          Ignore tokens after a complete expression instead of failing",
  "",
  "      --max-depth <MAX_DEPTH>",
  "          Maximum parser recursion depth",
  "          ",
  "          [default: 512]",
  "",
  "  -h, --help",
  "          Print help (see a summary with '-h')",
  "",
  "  -V, --version",
  "          Print version"]

end Calculator.CommandLine
