import Calculator.Expr.Basic
import Calculator.Parse.Options
import Calculator.Token

/-!
# The reference grammar

`Derives g l ts t`: the tokens `ts` are a phrase of level `l` with the tree `t`
when chains group to `g`. It says nothing of lookahead, limits or positions.
`Derives.unique` is its unambiguity.
-/

namespace Calculator

def Token.sign? : Token → Option Sign
  | plus => some .plus
  | minus => some .minus
  | _ => none

namespace Parse

/-! ## Levels of precedence -/

inductive Level where
  | expression | term | factor
  deriving DecidableEq

namespace Level

def tighter : Level → Level
  | expression => term
  | term | factor => factor

/-- The operators of a chain of this level. -/
def joins : Level → BinaryOp → Bool
  | expression => BinaryOp.isAdditive
  | term => BinaryOp.isMultiplicative
  | factor => fun _ => false

/-- The operators of a chain of this level or a tighter one. -/
def covers : Level → BinaryOp → Bool
  | expression => fun _ => true
  | term => BinaryOp.isMultiplicative
  | factor => fun _ => false

theorem ne_factor_of_joins {l : Level} {op : BinaryOp} (h : l.joins op = true) : l ≠ factor := by
  rintro rfl
  cases h

theorem covers_of_joins {l : Level} {op : BinaryOp} (h : l.joins op = true) : l.covers op = true := by
  cases l with
  | expression => rfl
  | term => exact h
  | factor => exact h

theorem covers_of_tighter {l : Level} {op : BinaryOp} (h : l.tighter.covers op = true) :
    l.covers op = true := by
  cases l with
  | expression => rfl
  | term => cases h
  | factor => exact h

theorem not_tighter_of_joins {l : Level} {op : BinaryOp} (h : l.joins op = true) :
    l.tighter.covers op = false := by
  cases l with
  | expression => cases op <;> first | rfl | cases h
  | term => rfl
  | factor => cases h

theorem joins_or_tighter {l : Level} {op : BinaryOp} (h : l.covers op = true) :
    l.joins op = true ∨ l.tighter.covers op = true := by
  cases l with
  | expression => cases op <;> simp [joins, tighter, covers, BinaryOp.isAdditive, BinaryOp.isMultiplicative]
  | term => exact .inl h
  | factor => exact .inl h

/-- A phrase of this level does not go on with `x`. -/
def Stops (l : Level) (x : Token) : Prop := ∀ op, x.binaryOp? = some op → l.covers op = false

theorem Stops.tighter {l : Level} {x : Token} (h : l.Stops x) : l.tighter.Stops x := by
  intro op hop
  have := h op hop
  cases hc : l.tighter.covers op with
  | false => rfl
  | true => rw [covers_of_tighter hc] at this; cases this

theorem Stops.joins_eq_false {l : Level} {x : Token} {op : BinaryOp} (h : l.Stops x)
    (hx : x.binaryOp? = some op) : l.joins op = false := by
  cases hj : l.joins op with
  | false => rfl
  | true => rw [← h op hx, covers_of_joins hj]

theorem Stops.binaryOp?_eq_none {x : Token} (h : expression.Stops x) : x.binaryOp? = none := by
  cases hx : x.binaryOp? with
  | none => rfl
  | some op => cases h op hx

theorem stops_factor (x : Token) : factor.Stops x := fun _ _ => rfl

end Level

/-! ## Derivations -/

/-- Grouping to the right, `l ::= l' | l' op l`; to the left, `l ::= l' | l op l'`,
where `l'` is the tighter level. Factors are the same in both. -/
inductive Derives (g : Grouping) : Level → List Token → Expr → Prop
  | operand {l : Level} {ts : List Token} {t : Expr} :
      l ≠ .factor → Derives g l.tighter ts t → Derives g l ts t
  | right {l : Level} {ts us : List Token} {x : Token} {op : BinaryOp} {a b : Expr} :
      g = .right → x.binaryOp? = some op → l.joins op = true →
      Derives g l.tighter ts a → Derives g l us b → Derives g l (ts ++ x :: us) (.binary op a b)
  | left {l : Level} {ts us : List Token} {x : Token} {op : BinaryOp} {a b : Expr} :
      g = .left → x.binaryOp? = some op → l.joins op = true →
      Derives g l ts a → Derives g l.tighter us b → Derives g l (ts ++ x :: us) (.binary op a b)
  | number {v : Binary64} : Derives g .factor [.number v] (.constant v)
  | group {ts : List Token} {t : Expr} :
      Derives g .expression ts t → Derives g .factor (.openParen :: ts ++ [.closeParen]) t
  | sign {ts : List Token} {x : Token} {s : Sign} {t : Expr} :
      x.sign? = some s → Derives g .factor ts t → Derives g .factor (x :: ts) (.unary s t)

/-- Operators of a chain with their right operands. -/
inductive Links (g : Grouping) (l : Level) : List Token → List (BinaryOp × Expr) → Prop
  | nil : Links g l [] []
  | cons {us vs : List Token} {x : Token} {op : BinaryOp} {b : Expr} {links : List (BinaryOp × Expr)} :
      x.binaryOp? = some op → l.joins op = true → Derives g l.tighter us b → Links g l vs links →
      Links g l (x :: (us ++ vs)) ((op, b) :: links)

def Grouping.join : Grouping → Expr → List (BinaryOp × Expr) → Expr
  | _, first, [] => first
  | .right, first, (op, b) :: links => .binary op first (join .right b links)
  | .left, first, (op, b) :: links => join .left (.binary op first b) links

section
variable {g : Grouping} {l : Level}

/-- A factor alone is a phrase of every level. -/
theorem Derives.ofFactor {ts : List Token} {t : Expr} (h : Derives g .factor ts t) : ∀ l, Derives g l ts t
  | .factor => h
  | .term => .operand (by decide) h
  | .expression => .operand (by decide) (.operand (by decide) h)

theorem join_left_concat (first b : Expr) (op : BinaryOp) (links : List (BinaryOp × Expr)) :
    Grouping.join .left first (links ++ [(op, b)]) = .binary op (Grouping.join .left first links) b := by
  induction links generalizing first with
  | nil => rfl
  | cons link links ih => exact ih _

theorem Links.concat {us vs : List Token} {x : Token} {op : BinaryOp} {b : Expr}
    {links : List (BinaryOp × Expr)} (h : Links g l vs links) (hx : x.binaryOp? = some op)
    (hj : l.joins op = true) (hb : Derives g l.tighter us b) :
    Links g l (vs ++ x :: us) (links ++ [(op, b)]) := by
  induction h with
  | nil => simpa using Links.cons hx hj hb Links.nil
  | cons hx' hj' hb' _ ih => simpa using Links.cons hx' hj' hb' ih

/-- A chain read without its grouping, which only decides how it is joined. -/
theorem Derives.chain {ts : List Token} {t : Expr} (h : Derives g l ts t) (hl : l ≠ .factor) :
    ∃ us a vs links, ts = us ++ vs ∧ Derives g l.tighter us a ∧ Links g l vs links ∧
      t = g.join a links := by
  induction h with
  | @operand l ts t _ hd _ => exact ⟨ts, t, [], [], by simp, hd, .nil, by cases g <;> rfl⟩
  | @right l ts us x op a b hg hx hj hd _ _ ih =>
    obtain ⟨us', a', vs, links, rfl, hd', hlinks, rfl⟩ := ih hl
    subst hg
    exact ⟨ts, a, x :: (us' ++ vs), (op, a') :: links, rfl, hd, .cons hx hj hd' hlinks, rfl⟩
  | @left l ts us x op a b hg hx hj _ hd ih _ =>
    obtain ⟨us', a', vs, links, rfl, hd', hlinks, rfl⟩ := ih hl
    subst hg
    exact ⟨us', a', vs ++ x :: us, links ++ [(op, b)], by simp, hd', hlinks.concat hx hj hd,
      (join_left_concat a' b op links).symm⟩
  | number => exact absurd rfl hl
  | group => exact absurd rfl hl
  | sign => exact absurd rfl hl

/-! ## Unambiguity

The grammar is determined from the left: of two phrases of one level that
start the same text, neither followed by more of its chain, each is the other.
-/

/-- What follows a phrase of level `l` is no more of it. -/
def Blocks (l : Level) (ts : List Token) : Prop := ∀ x ∈ ts.head?, l.Stops x

def Determined (g : Grouping) (l : Level) (ts : List Token) (t : Expr) : Prop :=
  ∀ us u xs ys, Derives g l us u → ts ++ xs = us ++ ys → Blocks l xs → Blocks l ys → ts = us ∧ t = u

theorem blocks_closeParen (l : Level) (xs : List Token) : Blocks l (.closeParen :: xs) := by
  intro x hx
  cases hx
  exact fun _ hop => nomatch hop

theorem not_blocks_of_joins {x : Token} {op : BinaryOp} {xs : List Token} (hx : x.binaryOp? = some op)
    (hj : l.joins op = true) : ¬ Blocks l (x :: xs) := by
  intro h
  have := h x rfl op hx
  rw [Level.covers_of_joins hj] at this
  cases this

theorem Links.blocks_tighter {vs xs : List Token} {links : List (BinaryOp × Expr)}
    (h : Links g l vs links) (hxs : Blocks l xs) : Blocks l.tighter (vs ++ xs) := by
  cases h with
  | nil => exact fun x hx => (hxs x hx).tighter
  | @cons us vs x op b links hx hj _ _ =>
    intro y hy op' hop
    cases hy
    cases hx.symm.trans hop
    exact Level.not_tighter_of_joins hj

theorem Links.unique {vs vs' xs ys : List Token} {links links' : List (BinaryOp × Expr)} {n : Nat}
    (hd : ∀ us b, us.length < n → Derives g l.tighter us b → Determined g l.tighter us b)
    (hn : vs.length < n) (h : Links g l vs links) (h' : Links g l vs' links')
    (he : vs ++ xs = vs' ++ ys) (hxs : Blocks l xs) (hys : Blocks l ys) : vs = vs' ∧ links = links' := by
  induction h generalizing vs' links' with
  | nil =>
    cases h' with
    | nil => exact ⟨rfl, rfl⟩
    | cons hx hj _ _ =>
      simp only [List.nil_append, List.cons_append] at he
      subst he
      exact absurd hxs (not_blocks_of_joins hx hj)
  | @cons us vs x op b links hx hj hb hlinks ih =>
    cases h' with
    | nil =>
      simp only [List.nil_append, List.cons_append] at he
      subst he
      exact absurd hys (not_blocks_of_joins hx hj)
    | @cons us' vs' x' op' b' links' hx' hj' hb' hlinks' =>
      simp only [List.cons_append, List.cons.injEq, List.append_assoc, List.length_cons,
        List.length_append] at he hn
      obtain ⟨rfl, he⟩ := he
      cases hx.symm.trans hx'
      obtain ⟨rfl, rfl⟩ := hd us b (by omega) hb us' b' _ _ hb' he (hlinks.blocks_tighter hxs)
        (hlinks'.blocks_tighter hys)
      obtain ⟨rfl, rfl⟩ := ih (by omega) hlinks' (List.append_cancel_left he)
      exact ⟨rfl, rfl⟩

theorem determined_chain {n : Nat} (hl : l ≠ .factor)
    (hd : ∀ us b, us.length < n → Derives g l.tighter us b → Determined g l.tighter us b)
    {ts : List Token} {t : Expr} (hn : ts.length < n) (h : Derives g l ts t) : Determined g l ts t := by
  intro us u xs ys hu he hxs hys
  obtain ⟨p, a, vs, links, rfl, ha, hlinks, rfl⟩ := h.chain hl
  obtain ⟨p', a', vs', links', rfl, ha', hlinks', rfl⟩ := hu.chain hl
  rw [List.length_append] at hn
  rw [List.append_assoc, List.append_assoc] at he
  obtain ⟨rfl, rfl⟩ := hd p a (by omega) ha p' a' _ _ ha' he (hlinks.blocks_tighter hxs)
    (hlinks'.blocks_tighter hys)
  obtain ⟨rfl, rfl⟩ := hlinks.unique hd (by omega) hlinks' (List.append_cancel_left he) hxs hys
  exact ⟨rfl, rfl⟩

theorem Derives.factor_cases {ts : List Token} {t : Expr} (h : Derives g .factor ts t) :
    (∃ v, ts = [.number v] ∧ t = .constant v) ∨
    (∃ us, ts = .openParen :: us ++ [.closeParen] ∧ Derives g .expression us t) ∨
    ∃ us x s u, ts = x :: us ∧ x.sign? = some s ∧ t = .unary s u ∧ Derives g .factor us u := by
  cases h with
  | operand hl _ => exact absurd rfl hl
  | right _ _ hj _ _ => cases hj
  | left _ _ hj _ _ => cases hj
  | number => exact .inl ⟨_, rfl, rfl⟩
  | group hd => exact .inr (.inl ⟨_, rfl, hd⟩)
  | sign hx hd => exact .inr (.inr ⟨_, _, _, _, rfl, hx, rfl, hd⟩)

theorem determined_factor {n : Nat}
    (hd : ∀ l us b, us.length < n → Derives g l us b → Determined g l us b)
    {ts : List Token} {t : Expr} (hn : ts.length < n + 1) (h : Derives g .factor ts t) :
    Determined g .factor ts t := by
  intro us u xs ys hu he hxs hys
  rcases h.factor_cases with ⟨v, rfl, rfl⟩ | ⟨ts', rfl, hg⟩ | ⟨ts', x, s, t', rfl, hx, rfl, hs⟩
  · rcases hu.factor_cases with ⟨v', rfl, rfl⟩ | ⟨us', rfl, _⟩ | ⟨us', x', s', u', rfl, hx', rfl, _⟩
    · cases he
      exact ⟨rfl, rfl⟩
    · cases he
    · cases he
      cases hx'
  · rcases hu.factor_cases with ⟨v', rfl, rfl⟩ | ⟨us', rfl, hg'⟩ | ⟨us', x', s', u', rfl, hx', rfl, _⟩
    · cases he
    · simp only [List.cons_append, List.cons.injEq, true_and, List.append_assoc, List.nil_append] at he
      simp only [List.length_cons, List.length_append] at hn
      obtain ⟨rfl, rfl⟩ := hd .expression ts' t (by omega) hg us' u _ _ hg' he
        (blocks_closeParen _ xs) (blocks_closeParen _ ys)
      exact ⟨rfl, rfl⟩
    · simp only [List.cons_append, List.cons.injEq] at he
      rw [← he.1] at hx'
      cases hx'
  · rcases hu.factor_cases with ⟨v', rfl, rfl⟩ | ⟨us', rfl, _⟩ | ⟨us', x', s', u', rfl, hx', rfl, hs'⟩
    · cases he
      cases hx
    · simp only [List.cons_append, List.cons.injEq] at he
      rw [he.1] at hx
      cases hx
    · simp only [List.cons_append, List.cons.injEq] at he
      obtain ⟨rfl, he⟩ := he
      cases hx.symm.trans hx'
      obtain ⟨rfl, rfl⟩ := hd .factor ts' t' (by simpa using hn) hs us' u' _ _ hs' he hxs hys
      exact ⟨rfl, rfl⟩

theorem determined_of_length (n : Nat) :
    ∀ (l : Level) (ts : List Token) (t : Expr), ts.length < n → Derives g l ts t → Determined g l ts t := by
  -- on the length, since a group leads from a factor back to an expression
  induction n with
  | zero => exact fun l ts t hn => absurd hn (Nat.not_lt_zero _)
  | succ n ih =>
    have hf : ∀ ts t, ts.length < n + 1 → Derives g .factor ts t → Determined g .factor ts t :=
      fun ts t => determined_factor ih
    have ht : ∀ ts t, ts.length < n + 1 → Derives g .term ts t → Determined g .term ts t :=
      fun ts t => determined_chain (by decide) hf
    intro l
    cases l with
    | expression => exact fun ts t => determined_chain (by decide) ht
    | term => exact ht
    | factor => exact hf

theorem Derives.determined {ts : List Token} {t : Expr} (h : Derives g l ts t) : Determined g l ts t :=
  determined_of_length _ l ts t (Nat.lt_succ_self _) h

/-- No token list has two trees. -/
theorem Derives.unique {ts : List Token} {t u : Expr} (h : Derives g l ts t) (h' : Derives g l ts u) :
    t = u :=
  (h.determined ts u [] [] h' rfl (fun _ hx => nomatch hx) (fun _ hx => nomatch hx)).2

end

end Parse

end Calculator
