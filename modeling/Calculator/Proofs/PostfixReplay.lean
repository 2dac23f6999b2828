import Calculator.Postfix.Printer
import Calculator.Proofs.NumberText
import Calculator.Proofs.PostfixListing

/-!
# Postfix text replays to the value

The words of an expression are cut out of its text again, and they list the
expression, so that they are evaluated to its value.
-/

namespace Calculator

namespace Binary64

theorem isWord_toText (a : Binary64) : Text.IsWord a.toText.toList := by
  rw [toText, String.toList_ofList]
  refine ⟨fun hnil => ?_, any_isWhiteSpace_toChars a⟩
  have hread := ofChars?_toChars a
  rw [hnil] at hread
  cases hread

end Binary64

/-! ## The words of an expression -/

namespace Postfix

theorem Printer.toList_emit (printer : Printer) (word : String) :
    (printer.emit word).words.toList = printer.words.toList ++ [word] := Array.toList_push

theorem Printer.toList_visit (e : Expr) (printer : Printer) :
    (visit e printer).words.toList = printer.words.toList ++ e.postfixWords := by
  unfold Expr.postfixWords
  induction e generalizing printer with
  | constant v => exact toList_emit printer v.toText
  | binary op l r ihl ihr =>
    show ((visit r (visit l printer)).emit op.symbol).words.toList =
      printer.words.toList ++ ((visit r (visit l empty)).emit op.symbol).words.toList
    rw [toList_emit, toList_emit, ihr (visit l printer), ihr (visit l empty), ihl printer, List.append_assoc,
      List.append_assoc, List.append_assoc]
  | unary s e ih =>
    show ((visit e printer).emit s.word).words.toList =
      printer.words.toList ++ ((visit e empty).emit s.word).words.toList
    rw [toList_emit, toList_emit, ih printer, List.append_assoc]

end Postfix

namespace Expr

@[simp] theorem postfixWords_constant (v : Binary64) : (constant v).postfixWords = [v.toText] := rfl

@[simp] theorem postfixWords_binary (op : BinaryOp) (l r : Expr) :
    (binary op l r).postfixWords = l.postfixWords ++ (r.postfixWords ++ [op.symbol]) := by
  show ((Postfix.Printer.visit r (Postfix.Printer.visit l .empty)).emit op.symbol).words.toList = _
  rw [Postfix.Printer.toList_emit, Postfix.Printer.toList_visit, List.append_assoc]
  rfl

@[simp] theorem postfixWords_unary (s : Sign) (e : Expr) :
    (unary s e).postfixWords = e.postfixWords ++ [s.word] :=
  (Postfix.Printer.visit e .empty).toList_emit s.word

theorem isWord_of_mem_postfixWords {e : Expr} {word : String} (h : word ∈ e.postfixWords) :
    Text.IsWord word.toList := by
  have hsymbol : ∀ op : BinaryOp, Text.IsWord op.symbol.toList := by
    intro op
    cases op <;> decide
  have hsign : ∀ s : Sign, Text.IsWord s.word.toList := by
    intro s
    cases s <;> decide
  induction e with
  | constant v =>
    rw [postfixWords_constant, List.mem_singleton] at h
    exact h ▸ v.isWord_toText
  | binary op l r ihl ihr =>
    rw [postfixWords_binary, List.mem_append, List.mem_append, List.mem_singleton] at h
    rcases h with h | h | rfl
    · exact ihl h
    · exact ihr h
    · exact hsymbol op
  | unary s e ih =>
    rw [postfixWords_unary, List.mem_append, List.mem_singleton] at h
    rcases h with h | rfl
    · exact ih h
    · exact hsign s

theorem words_postfixText (e : Expr) : Text.words e.postfixText = e.postfixWords :=
  Text.words_intercalate fun _ => isWord_of_mem_postfixWords

end Expr

/-! ## The words list the expression -/

namespace Postfix

/-- No operator reads as a number, so a number is never taken for an operator. -/
theorem ofText?_of_ofWord? {word : String} {op : Operator} (h : Operator.ofWord? word = some op) :
    Binary64.ofText? word = none := by
  unfold Operator.ofWord? at h
  split at h
  all_goals first
    | rfl
    | cases h

theorem lists_postfixWords (e : Expr) : Lists e.postfixWords e := by
  induction e with
  | constant v =>
    refine .constant (fun op hop => ?_) v.ofText?_toText
    cases (ofText?_of_ofWord? (ofWord?_eq_some_iff.mpr hop)).symm.trans v.ofText?_toText
  | binary op l r ihl ihr =>
    rw [Expr.postfixWords_binary]
    exact ihl.binary ihr
  | unary s e ih =>
    rw [Expr.postfixWords_unary]
    exact ih.unary

theorem runFrom_postfixWords (stack : OperandStack) (index : Nat) (e : Expr) :
    runFrom index stack e.postfixWords = .ok (stack.push e.value) :=
  (lists_postfixWords e).runFrom_eq stack index

/-- Equal doubles, so the sign of a zero is kept; there is one NaN. -/
theorem evaluate_postfixText (e : Expr) : evaluate e.postfixText = .ok e.value := by
  rw [evaluate, e.words_postfixText, runFrom_postfixWords]
  rfl

end Postfix

end Calculator
