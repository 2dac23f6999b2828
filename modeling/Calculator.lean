import Calculator.Binary64.Tolerance
import Calculator.Expr.Count
import Calculator.Log
import Calculator.Postfix.Reader
import Calculator.Main
import Calculator.Parse.Counted
import Calculator.Proofs.Groupings
import Calculator.Proofs.HeightLimit
import Calculator.Proofs.PostfixReplay
import Calculator.Proofs.Spans
import Calculator.Proofs.StackRuns
import Calculator.Proofs.Tallest
import Calculator.Proofs.Threshold
import Calculator.Proofs.InfixRoundTrip
import Calculator.Proofs.LexerCalls
import Calculator.Proofs.FirstError
import Calculator.Proofs.Overload
import Calculator.Proofs.Literals
import Calculator.Proofs.Trailing
import Calculator.Proofs.Arities
import Calculator.Proofs.LazyReading
import Calculator.Proofs.Blanks
import Calculator.Proofs.Conservation
import Calculator.Proofs.UniqueReading
import Calculator.Proofs.OutputModes
import Calculator.Proofs.Agreement
import Calculator.Proofs.DepthCounter
import Calculator.Proofs.Lookahead
