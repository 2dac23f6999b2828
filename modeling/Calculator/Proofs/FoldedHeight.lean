import Calculator.Expr.Count
import Calculator.Proofs.Phrase
import Calculator.Proofs.Verdict

/-!
# The height read off the lexemes

A chain that groups to the left folds each operand as soon as it is read. So one
pass over the lexemes gives the height of the tree. It keeps for each open group
the heights of what is folded in it, while the limit is held against the levels
that `scanWithin` counts.
-/

namespace Calculator.Parse

/-! ## Folds -/

/-- The heights of the terms folded in a group and of the factors folded behind
them, zero where there are none, and the signs just read. -/
structure Heights where
  sum : Nat
  product : Nat
  signs : Nat

/-- The height of a chain with one more operand. -/
def foldedOnto (chain operand : Nat) : Nat := if chain = 0 then operand else 1 + max chain operand

namespace Heights

def fresh : Heights := ⟨0, 0, 0⟩

def total (h : Heights) : Nat := foldedOnto h.sum h.product

def addOperand (h : Heights) (operand : Nat) : Heights := ⟨h.sum, foldedOnto h.product (h.signs + operand), 0⟩

def addSign (h : Heights) : Heights := { h with signs := h.signs + 1 }

def addOperator (h : Heights) (op : BinaryOp) : Heights := if op.isAdditive then ⟨h.total, 0, 0⟩ else h

end Heights

/-- The height of the tree that is folded from the lexemes up to its end. -/
def heightFrom : Phase → Heights → (outer : List Heights) → List Lexeme → Nat
  | _, h, _, [] => h.total
  | .operand, h, outer, x :: xs =>
    match x.token with
    | .number _ => heightFrom .operator (h.addOperand 1) outer xs
    | .openParen => heightFrom .operand .fresh (h :: outer) xs
    | _ => heightFrom .operand h.addSign outer xs
  | .operator, h, outer, x :: xs =>
    match x.token.binaryOp?, outer with
    | some op, _ => heightFrom .operand (h.addOperator op) outer xs
    | none, [] => h.total
    | none, k :: outer => heightFrom .operator (k.addOperand h.total) outer xs

def foldedHeight (source : String) : Nat := heightFrom .operand .fresh [] (lexemes source)

/-! ## Single steps -/

section
variable {h k : Heights} {outer : List Heights} {x : Lexeme} {xs : List Lexeme} {a b : Nat}

theorem foldedOnto_zero (operand : Nat) : foldedOnto 0 operand = operand := rfl

theorem foldedOnto_pos (ha : 0 < a) : foldedOnto a b = 1 + max a b := by
  rw [foldedOnto, if_neg (Nat.ne_of_gt ha)]

theorem heightFrom_number {v : Binary64} (hx : x.token = .number v) :
    heightFrom .operand h outer (x :: xs) = heightFrom .operator (h.addOperand 1) outer xs := by
  obtain ⟨token, text, start, stop⟩ := x
  cases hx
  rfl

theorem heightFrom_openParen (hx : x.token = .openParen) :
    heightFrom .operand h outer (x :: xs) = heightFrom .operand .fresh (h :: outer) xs := by
  obtain ⟨token, text, start, stop⟩ := x
  cases hx
  rfl

theorem heightFrom_sign {s : Sign} (hx : x.token.sign? = some s) :
    heightFrom .operand h outer (x :: xs) = heightFrom .operand h.addSign outer xs := by
  obtain ⟨token, text, start, stop⟩ := x
  cases token with
  | plus | minus => rfl
  | _ => cases hx

theorem heightFrom_operator {op : BinaryOp} (hx : x.token.binaryOp? = some op) :
    heightFrom .operator h outer (x :: xs) = heightFrom .operand (h.addOperator op) outer xs := by
  obtain ⟨token, text, start, stop⟩ := x
  cases token with
  | plus | minus | star | slash => cases hx; rfl
  | _ => cases hx

theorem heightFrom_closeParen (hx : x.token = .closeParen) :
    heightFrom .operator h (k :: outer) (x :: xs) = heightFrom .operator (k.addOperand h.total) outer xs := by
  obtain ⟨token, text, start, stop⟩ := x
  cases hx
  rfl

theorem heightFrom_end (hx : x.token.binaryOp? = none) : heightFrom .operator h [] (x :: xs) = h.total := by
  obtain ⟨token, text, start, stop⟩ := x
  cases token with
  | plus | minus | star | slash => cases hx
  | _ => rfl

end

/-! ## Phrases -/

/-- What the pass makes of a phrase of level `l` and height `n`: a factor is
folded onto any chain, a term starts a product and an expression a group. -/
def Level.Climbs (xs : List Lexeme) (n : Nat) : Level → Prop
  | factor => ∀ h outer rest,
      heightFrom .operand h outer (xs ++ rest) = heightFrom .operator (h.addOperand n) outer rest
  | term => ∀ sum outer rest,
      heightFrom .operand ⟨sum, 0, 0⟩ outer (xs ++ rest) = heightFrom .operator ⟨sum, n, 0⟩ outer rest
  | expression => ∀ outer rest, ∃ h : Heights, h.total = n ∧
      heightFrom .operand .fresh outer (xs ++ rest) = heightFrom .operator h outer rest

section
variable {xs ys : List Lexeme} {x y : Lexeme} {op : BinaryOp} {n m : Nat}

theorem Level.Climbs.operand {l : Level} (hl : l ≠ factor) (h : l.tighter.Climbs xs n) : l.Climbs xs n := by
  cases l with
  | expression => exact fun outer rest => ⟨⟨0, n, 0⟩, foldedOnto_zero n, h 0 outer rest⟩
  | term =>
    intro sum outer rest
    have hstart : Heights.addOperand ⟨sum, 0, 0⟩ n = ⟨sum, n, 0⟩ := by
      rw [Heights.addOperand, foldedOnto_zero, Nat.zero_add]
    rw [← hstart]
    exact h ⟨sum, 0, 0⟩ outer rest
  | factor => exact absurd rfl hl

theorem Level.Climbs.left {l : Level} (hx : x.token.binaryOp? = some op) (hj : l.joins op = true) (hn : 0 < n)
    (ha : l.Climbs xs n) (hb : l.tighter.Climbs ys m) : l.Climbs (xs ++ x :: ys) (1 + max n m) := by
  cases l with
  | expression =>
    intro outer rest
    obtain ⟨h, rfl, hstart⟩ := ha outer (x :: ys ++ rest)
    have hadd : h.addOperator op = ⟨h.total, 0, 0⟩ := if_pos hj
    refine ⟨⟨h.total, m, 0⟩, foldedOnto_pos hn, ?_⟩
    rw [List.append_assoc, hstart, List.cons_append, heightFrom_operator hx, hadd]
    exact hb h.total outer rest
  | term =>
    intro sum outer rest
    have hmul : Heights.addOperator ⟨sum, n, 0⟩ op = ⟨sum, n, 0⟩ := by cases op <;> first | rfl | cases hj
    have hfold : Heights.addOperand ⟨sum, n, 0⟩ m = ⟨sum, 1 + max n m, 0⟩ := by
      rw [Heights.addOperand, foldedOnto_pos hn, Nat.zero_add]
    rw [List.append_assoc, ha sum outer, List.cons_append, heightFrom_operator hx, hmul, ← hfold]
    exact hb ⟨sum, n, 0⟩ outer rest
  | factor => cases hj

theorem Level.Climbs.group (hx : x.token = .openParen) (hy : y.token = .closeParen)
    (h : expression.Climbs xs n) : factor.Climbs (x :: xs ++ [y]) n := by
  intro k outer rest
  obtain ⟨h, rfl, hinner⟩ := h (k :: outer) ([y] ++ rest)
  rw [List.cons_append, List.cons_append, heightFrom_openParen hx, List.append_assoc, hinner,
    List.singleton_append, heightFrom_closeParen hy]

theorem Level.Climbs.sign {s : Sign} (hx : x.token.sign? = some s) (h : factor.Climbs xs n) :
    factor.Climbs (x :: xs) (1 + n) := by
  intro k outer rest
  have hsigned : k.addSign.addOperand n = k.addOperand (1 + n) := by
    simp only [Heights.addOperand, Heights.addSign, Nat.add_assoc]
  rw [List.cons_append, heightFrom_sign hx, h, hsigned]

end

theorem Derives.climbs {g : Grouping} {l : Level} {ts : List Token} {t : Expr} (hg : g = .left)
    (h : Derives g l ts t) : ∀ xs : List Lexeme, xs.map Lexeme.token = ts → l.Climbs xs t.count.depth := by
  induction h with
  | operand hl _ ih => exact fun xs hxs => (ih xs hxs).operand hl
  | right hr => cases hg.symm.trans hr
  | @left l ts us x op a b _ hx hj _ _ iha ihb =>
    intro xs hxs
    obtain ⟨as, zs, rfl, has, hzs⟩ := List.map_eq_append_iff.mp hxs
    obtain ⟨z, bs, rfl, hz, hbs⟩ := List.map_eq_cons_iff.mp hzs
    exact (iha as has).left (hz ▸ hx) hj a.depth_pos (ihb bs hbs)
  | number =>
    intro xs hxs k outer rest
    obtain ⟨z, zs, rfl, hz, hzs⟩ := List.map_eq_cons_iff.mp hxs
    obtain rfl := List.map_eq_nil_iff.mp hzs
    exact heightFrom_number hz
  | group _ ih =>
    intro xs hxs
    obtain ⟨ys, ws, rfl, hys, hws⟩ := List.map_eq_append_iff.mp hxs
    obtain ⟨z, zs, rfl, hz, hzs⟩ := List.map_eq_cons_iff.mp hys
    obtain ⟨w, ws, rfl, hw, hws⟩ := List.map_eq_cons_iff.mp hws
    obtain rfl := List.map_eq_nil_iff.mp hws
    exact (ih zs hzs).group hz hw
  | sign hx _ ih =>
    intro xs hxs
    obtain ⟨z, zs, rfl, hz, hzs⟩ := List.map_eq_cons_iff.mp hxs
    exact (ih zs hzs).sign (hz ▸ hx)

theorem depth_eq_foldedHeight {source : String} {o : Options} {t : Expr} (hg : o.grouping = .left)
    (h : parse source o = .ok t) : t.count.depth = foldedHeight source := by
  obtain ⟨d, hrun⟩ := (parse_eq_ok_iff source o).mp h
  obtain ⟨b, hstart, _, hr, ht, _⟩ := run_parses hrun
  have hs := ht.stands hr
  have hread : Phrase o.grouping .expression b.ahead t d.ahead := ht.read
  obtain ⟨xs, hsplit, hderives, _⟩ := hread
  obtain ⟨k, htotal, hclimb⟩ := hderives.climbs hg xs rfl [] d.ahead
  rw [foldedHeight, hstart, hsplit, hclimb, Cursor.ahead, heightFrom_end hs.stops.binaryOp?_eq_none, htotal]

end Calculator.Parse
