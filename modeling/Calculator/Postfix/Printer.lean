import Calculator.Expr.Basic

/-!
# Postfix text of an expression

Operands come before their operator. A printer collects the words of every
expression that it is given, in order.
-/

namespace Calculator.Postfix

structure Printer where
  words : Array String

namespace Printer

def empty : Printer := ⟨#[]⟩

def emit (printer : Printer) (word : String) : Printer := ⟨printer.words.push word⟩

def visit : Expr → Printer → Printer
  | .constant value, printer => printer.emit value.toText
  | .binary op l r, printer => (visit r (visit l printer)).emit op.symbol
  | .unary s e, printer => (visit e printer).emit s.word

end Printer

end Calculator.Postfix

namespace Calculator.Expr

def postfixWords (e : Expr) : List String := (Postfix.Printer.visit e .empty).words.toList

def postfixText (e : Expr) : String := " ".intercalate e.postfixWords

end Calculator.Expr
