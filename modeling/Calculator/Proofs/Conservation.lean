import Calculator.Expr.Count
import Calculator.Proofs.Arities
import Calculator.Proofs.Language
import Calculator.Proofs.PostfixReplay

/-!
# What text, tree and postfix text share

Every number of an expression is a leaf of its tree and a word of its postfix
text, and every operator a node and a word. Nothing else has a node or a word,
and the numbers keep their order.
-/

namespace Calculator

def Token.number? : Token → Option Binary64
  | number v => some v
  | _ => none

namespace Expr

/-- The constants from left to right. -/
def constants : Expr → List Binary64
  | constant v => [v]
  | binary _ l r => l.constants ++ r.constants
  | unary _ e => e.constants

theorem length_constants (t : Expr) : t.constants.length = t.count.leaves := by
  induction t with
  | constant v => rfl
  | binary op l r ihl ihr => simp [constants, count, ihl, ihr]
  | unary s e ih => simp [constants, count, ih]

end Expr

/-! ## From text to tree -/

namespace Parse

section
variable {g : Grouping} {l : Level} {ts : List Token} {t : Expr} {x : Token}

theorem number?_of_binaryOp {op : BinaryOp} (h : x.binaryOp? = some op) : x.number? = none := by
  cases x <;> first | rfl | cases h

theorem binaryOp?_of_sign {s : Sign} (h : x.sign? = some s) : ∃ op, x.binaryOp? = some op := by
  cases x <;> first | exact ⟨_, rfl⟩ | cases h

theorem Derives.filterMap_number? (h : Derives g l ts t) : ts.filterMap Token.number? = t.constants := by
  induction h with
  | operand _ _ ih => exact ih
  | right _ hx _ _ _ iha ihb => simp [Expr.constants, number?_of_binaryOp hx, iha, ihb]
  | left _ hx _ _ _ iha ihb => simp [Expr.constants, number?_of_binaryOp hx, iha, ihb]
  | number => rfl
  | group _ ih => simp [List.filterMap_cons, Token.number?, ih]
  | sign hx _ ih =>
    obtain ⟨op, hop⟩ := binaryOp?_of_sign hx
    simp [Expr.constants, number?_of_binaryOp hop, ih]

theorem Derives.countP_binaryOp? (h : Derives g l ts t) :
    ts.countP (fun x => x.binaryOp?.isSome) = t.count.operators := by
  -- a sign is written like a binary operator, and is a node of its own
  induction h with
  | operand _ _ ih => exact ih
  | right _ hx _ _ _ iha ihb =>
    simp only [List.countP_append, List.countP_cons, hx, iha, ihb, Expr.count, Option.isSome_some, ite_true]
    omega
  | left _ hx _ _ _ iha ihb =>
    simp only [List.countP_append, List.countP_cons, hx, iha, ihb, Expr.count, Option.isSome_some, ite_true]
    omega
  | number => rfl
  | group _ ih =>
    rw [List.countP_append, List.countP_cons, ih]
    rfl
  | sign hx _ ih =>
    obtain ⟨op, hop⟩ := binaryOp?_of_sign hx
    simp only [List.countP_cons, hop, ih, Expr.count, Option.isSome_some, ite_true]
    omega

/-- Parentheses are the only tokens that leave no node, and they come in pairs. -/
theorem Derives.count_openParen (h : Derives g l ts t) : ts.count .openParen = ts.count .closeParen := by
  have hoperator : ∀ {x : Token} {op : BinaryOp}, x.binaryOp? = some op → x ≠ .openParen ∧ x ≠ .closeParen := by
    rintro x op hx
    constructor <;> rintro rfl <;> cases hx
  induction h with
  | operand _ _ ih => exact ih
  | right _ hx _ _ _ iha ihb => simp [hoperator hx, iha, ihb]
  | left _ hx _ _ _ iha ihb => simp [hoperator hx, iha, ihb]
  | number => rfl
  | group _ ih => simp [ih]
  | sign hx _ ih =>
    obtain ⟨op, hop⟩ := binaryOp?_of_sign hx
    simp [hoperator hop, ih]

end

end Parse

/-! ## From tree to postfix text -/

namespace Postfix

theorem kind_toText (v : Binary64) : kind v.toText = .number := by
  rw [kind_eq]
  cases hop : Operator.ofWord? v.toText with
  | some op => cases (ofText?_of_ofWord? hop).symm.trans v.ofText?_toText
  | none => simp [v.ofText?_toText]

theorem kind_symbol (op : BinaryOp) : kind op.symbol = .binary := by
  cases op <;> rfl

theorem kind_word (s : Sign) : kind s.word = .sign := by
  cases s <;> rfl

theorem toList_foldl_visit (es : List Expr) (printer : Printer) :
    (es.foldl (fun printer e => Printer.visit e printer) printer).words.toList =
      printer.words.toList ++ es.flatMap Expr.postfixWords := by
  induction es generalizing printer with
  | nil => simp
  | cons e es ih => rw [List.foldl_cons, ih, Printer.toList_visit, List.flatMap_cons, List.append_assoc]

end Postfix

namespace Expr

open Postfix

theorem length_postfixWords (t : Expr) : t.postfixWords.length = t.count.leaves + t.count.operators := by
  induction t with
  | constant v => rfl
  | binary op l r ihl ihr =>
    simp only [postfixWords_binary, List.length_append, ihl, ihr, count, List.length_singleton]
    omega
  | unary s e ih =>
    simp only [postfixWords_unary, List.length_append, ih, count, List.length_singleton]
    omega

theorem filter_number_postfixWords (t : Expr) :
    t.postfixWords.filter (kind · = .number) = t.constants.map Binary64.toText := by
  induction t with
  | constant v => simp [constants, kind_toText]
  | binary op l r ihl ihr => simp [constants, kind_symbol, ihl, ihr]
  | unary s e ih => simp [constants, kind_word, ih]

end Expr

/-! ## From text to postfix text -/

/-- The tokens of an expression, its tree and its postfix words agree in their numbers and operators. -/
structure Conserved (tokens : List Token) (t : Expr) : Prop where
  leaves : t.count.leaves = tokens.countP fun x => x.number?.isSome
  operators : t.count.operators = tokens.countP fun x => x.binaryOp?.isSome
  words : t.postfixWords.length = t.count.leaves + t.count.operators
  numbers : t.postfixWords.filter (Postfix.kind · = .number) = (tokens.filterMap Token.number?).map Binary64.toText
  parentheses : tokens.count .openParen = tokens.count .closeParen

namespace Parse

theorem Derives.conserved {g : Grouping} {ts : List Token} {t : Expr} (h : Derives g .expression ts t) :
    Conserved (ts ++ [.endOfInput]) t := by
  have hconstants : (ts ++ [Token.endOfInput]).filterMap Token.number? = t.constants := by
    rw [List.filterMap_append, h.filterMap_number?]
    exact List.append_nil _
  refine ⟨?_, ?_, t.length_postfixWords, ?_, ?_⟩
  · rw [← t.length_constants, ← hconstants, List.length_filterMap_eq_countP]
  · rw [List.countP_append, h.countP_binaryOp?]
    rfl
  · rw [t.filter_number_postfixWords, hconstants]
  · rw [List.count_append, List.count_append, h.count_openParen]
    rfl

/-- Nothing is lost or doubled from the text to the tree, and from the trees to the words of one printer. -/
theorem conserved_of_parse :
    (∀ (source : String) (g : Grouping) (limit : Nat) (t : Expr), parse source ⟨g, false, limit⟩ = .ok t →
      Conserved ((lexemes source).map Lexeme.token) t) ∧
    ∀ es : List Expr, (es.foldl (fun printer e => Postfix.Printer.visit e printer) .empty).words.toList =
      es.flatMap Expr.postfixWords := by
  refine ⟨fun source g limit t h => ?_, fun es => ?_⟩
  · obtain ⟨-, hderives⟩ := derives_of_parse rfl h
    obtain ⟨y, hlexemes, hy, -⟩ := lexemes_eq_concat source
    rw [hlexemes, List.map_append, List.map_singleton, hy]
    exact hderives.conserved
  · rw [Postfix.toList_foldl_visit]
    rfl

theorem conserved_of_parse_signs :
    ∃ t, parse "-(20+3)*+4" ⟨.right, false, 30⟩ = .ok t ∧ t.postfixText = "20 3 + neg 4 pos *" ∧
      Conserved ((lexemes "-(20+3)*+4").map Lexeme.token) t := by
  let sum : Expr := .binary .add (.constant (.ofNat 20)) (.constant (.ofNat 3))
  let t : Expr := .binary .mul (.unary .minus sum) (.unary .plus (.constant (.ofNat 4)))
  have hparse : parse "-(20+3)*+4" ⟨.right, false, 30⟩ = .ok t := by decide +kernel
  exact ⟨t, hparse, by decide +kernel, conserved_of_parse.1 _ .right 30 t hparse⟩

end Parse

end Calculator
