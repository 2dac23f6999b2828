import Calculator.Expr.Count
import Calculator.Proofs.Phrase
import Calculator.Proofs.Verdict

/-!
# The two groupings

The grouping of chains changes the shape of a tree and nothing else. Both
groupings refuse the same sources with the same errors, since neither one plays
a part in the scan, and where they accept they read the same lexemes. Read from
left to right a tree gives back its lexemes without the parentheses.
-/

namespace Calculator

/-! ## Trees from left to right -/

inductive Symbol where
  | constant (value : Binary64)
  | operator (op : BinaryOp)
  | sign (s : Sign)
  deriving DecidableEq

def Symbol.isConstant : Symbol → Bool
  | constant _ => true
  | _ => false

namespace Expr

/-- The nodes in order: an operator between its operands, a sign before its own. -/
def symbols : Expr → List Symbol
  | constant v => [.constant v]
  | binary op l r => l.symbols ++ .operator op :: r.symbols
  | unary s e => .sign s :: e.symbols

theorem leaves_eq_countP (t : Expr) : t.count.leaves = t.symbols.countP Symbol.isConstant := by
  induction t with
  | constant v => rfl
  | binary op l r ihl ihr => simp [count, symbols, ihl, ihr, Symbol.isConstant]
  | unary s e ih => simp [count, symbols, ih, Symbol.isConstant]

theorem operators_eq_countP (t : Expr) :
    t.count.operators = t.symbols.countP fun x => !x.isConstant := by
  induction t with
  | constant v => rfl
  | binary op l r ihl ihr =>
    simp only [count, symbols, ihl, ihr, List.countP_append]
    simp [Symbol.isConstant]
    omega
  | unary s e ih =>
    simp only [count, symbols, ih]
    simp [Symbol.isConstant]
    omega

end Expr

namespace Parse

/-! ## Tokens from left to right -/

/-- The nodes that the tokens name. Between operands a sign is an operator. -/
def readSymbols : Phase → List Token → List Symbol
  | _, [] => []
  | .operand, x :: ts =>
    match x, x.sign? with
    | .number v, _ => .constant v :: readSymbols .operator ts
    | _, some s => .sign s :: readSymbols .operand ts
    | _, none => readSymbols .operand ts
  | .operator, x :: ts =>
    match x.binaryOp? with
    | some op => .operator op :: readSymbols .operand ts
    | none => readSymbols .operator ts

section
variable {g : Grouping} {l : Level} {ts : List Token} {x : Token} {t : Expr}

theorem readSymbols_sign {s : Sign} (hx : x.sign? = some s) :
    readSymbols .operand (x :: ts) = .sign s :: readSymbols .operand ts := by
  cases x with
  | plus | minus => cases hx; rfl
  | _ => cases hx

theorem readSymbols_operator {op : BinaryOp} (hx : x.binaryOp? = some op) :
    readSymbols .operator (x :: ts) = .operator op :: readSymbols .operand ts := by
  cases x with
  | plus | minus | star | slash => cases hx; rfl
  | _ => cases hx

theorem Derives.readSymbols_eq (h : Derives g l ts t) (rest : List Token) :
    readSymbols .operand (ts ++ rest) = t.symbols ++ readSymbols .operator rest := by
  induction h generalizing rest with
  | operand _ _ ih => exact ih rest
  | right _ hx _ _ _ iha ihb =>
    rw [List.append_assoc, iha, List.cons_append, readSymbols_operator hx, ihb]
    simp [Expr.symbols]
  | left _ hx _ _ _ iha ihb =>
    rw [List.append_assoc, iha, List.cons_append, readSymbols_operator hx, ihb]
    simp [Expr.symbols]
  | number => rfl
  | @group ts t _ ih =>
    have hopen : readSymbols .operand (.openParen :: (ts ++ (.closeParen :: rest))) =
      readSymbols .operand (ts ++ (.closeParen :: rest)) := rfl
    have hclose : readSymbols .operator (.closeParen :: rest) = readSymbols .operator rest := rfl
    rw [List.append_assoc, List.cons_append, List.singleton_append, hopen, ih, hclose]
  | sign hx _ ih =>
    rw [List.cons_append, readSymbols_sign hx, ih]
    rfl

theorem Derives.symbols_eq (h : Derives g l ts t) : t.symbols = readSymbols .operand ts := by
  have hread := h.readSymbols_eq []
  have hend : readSymbols .operator [] = [] := rfl
  rw [List.append_nil, hend, List.append_nil] at hread
  exact hread.symm

theorem Phrase.symbols_eq {g g' : Grouping} {start rest : List Lexeme} {t u : Expr}
    (ht : Phrase g l start t rest) (hu : Phrase g' l start u rest) : t.symbols = u.symbols := by
  obtain ⟨xs, rfl, hdt, _⟩ := ht
  obtain ⟨ys, heq, hdu, _⟩ := hu
  obtain rfl := List.append_cancel_right heq
  rw [hdt.symbols_eq, hdu.symbols_eq]

end

/-! ## The same verdict -/

theorem parse_left_right (source : String) (lenient : Bool) (limit : Nat) :
    match parse source ⟨.left, lenient, limit⟩, parse source ⟨.right, lenient, limit⟩ with
    | .ok t, .ok u =>
      t.symbols = u.symbols ∧ t.count.leaves = u.count.leaves ∧ t.count.operators = u.count.operators
    | .error e, .error f => e = f
    | _, _ => False := by
  have hleft := run_scanWithin source ⟨.left, lenient, limit⟩
  have hright := run_scanWithin source ⟨.right, lenient, limit⟩
  unfold parse
  cases hl : run source ⟨.left, lenient, limit⟩ with
  | ok t c =>
    rw [hl] at hleft
    cases hr : run source ⟨.right, lenient, limit⟩ with
    | ok u d =>
      rw [hr] at hright
      have hrest : c.ahead = d.ahead := Except.ok.inj (hleft.symm.trans hright)
      have ht := (run_reads hl).1
      have hu := (run_reads hr).1
      rw [hrest] at ht
      have hsymbols : t.symbols = u.symbols := ht.symbols_eq hu
      refine ⟨hsymbols, ?_, ?_⟩
      · rw [t.leaves_eq_countP, u.leaves_eq_countP, hsymbols]
      · rw [t.operators_eq_countP, u.operators_eq_countP, hsymbols]
    | error e d =>
      rw [hr] at hright
      cases hleft.symm.trans hright
  | error e c =>
    rw [hl] at hleft
    cases hr : run source ⟨.right, lenient, limit⟩ with
    | ok u d =>
      rw [hr] at hright
      cases hleft.symm.trans hright
    | error f d =>
      rw [hr] at hright
      exact Except.error.inj (hleft.symm.trans hright)

end Parse

end Calculator
