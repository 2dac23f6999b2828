import Calculator.Proofs.Threshold

/-!
# Places in a source

The lexemes of a source lead, from left to right, from place to place. At a
place an operand or an operator is due, and each open group has its items. They
tell how many levels an operand needs there. The parser stops at the first
operand that needs more than the limit, and else where no lexeme leads on
(`parse_eq_error_iff_halts`).
-/

namespace Calculator.Parse

/-! ## Items of a group -/

/-- What stands directly in a group. A number is an operand, and so is a closed group. -/
inductive Item where
  | operand | sign
  | operator (op : BinaryOp)
  deriving DecidableEq

namespace Item

def isSign : Item → Bool
  | sign => true
  | _ => false

/-- Is it an operator that `accepts` admits? -/
def isOperator (accepts : BinaryOp → Bool) : Item → Bool
  | operator op => accepts op
  | _ => false

@[simp] theorem isSign_operand : isSign operand = false := rfl
@[simp] theorem isSign_sign : isSign sign = true := rfl
@[simp] theorem isSign_operator (op : BinaryOp) : isSign (operator op) = false := rfl

variable (accepts : BinaryOp → Bool)

@[simp] theorem isOperator_operand : isOperator accepts operand = false := rfl
@[simp] theorem isOperator_sign : isOperator accepts sign = false := rfl
@[simp] theorem isOperator_operator (op : BinaryOp) : isOperator accepts (operator op) = accepts op := rfl

end Item

/-- The additive operators of a group, the multiplicative ones behind the last of them, and the
signs at the end. The items come with the latest first. -/
def tally (items : List Item) : Group where
  additive := items.countP (Item.isOperator BinaryOp.isAdditive)
  multiplicative :=
    (items.takeWhile fun i => !i.isOperator BinaryOp.isAdditive).countP (Item.isOperator BinaryOp.isMultiplicative)
  signs := (items.takeWhile Item.isSign).length

section
variable {items : List Item}

theorem tally_sign : tally (.sign :: items) = (tally items).addSign := rfl

theorem tally_operator (op : BinaryOp) : tally (.operator op :: items) = (tally items).addOperator op := by
  cases op <;>
    simp [tally, Group.addOperator, List.countP_cons, BinaryOp.isAdditive, BinaryOp.isMultiplicative]

/-- Behind an operand the signs before it do not count, and nothing else changes. -/
theorem agrees_tally_operand {g : Group} (h : g.Agrees (tally items) .factor) :
    g.Agrees (tally (.operand :: items)) .factor := h

end

/-! ## Places -/

/-- What is due next, the items of the innermost open group and of those around it. -/
structure Place where
  due : Phase
  items : List Item
  outer : List (List Item)

namespace Place

/-- The whole source is the first group. -/
def start : Place := ⟨.operand, [], []⟩

/-- The place behind the lexeme, unless it is a fault or the expression is over. -/
def next (p : Place) (x : Lexeme) : Option Place :=
  match classify false x p.due p.outer.length with
  | .ok .literal => some ⟨.operator, .operand :: p.items, p.outer⟩
  | .ok .sign => some ⟨.operand, .sign :: p.items, p.outer⟩
  | .ok .opening => some ⟨.operand, [], p.items :: p.outer⟩
  | .ok (.operator op) => some ⟨.operand, .operator op :: p.items, p.outer⟩
  | .ok .closing => some ⟨.operator, .operand :: p.outer.headD [], p.outer.tail⟩
  | .ok .finish | .error _ => none

def after (p : Place) (xs : List Lexeme) : Option Place := xs.foldlM next p

/-- The levels that an operand needs: three for each open group, and one for each operator and
sign that counts in it. -/
def need (p : Place) : Nat := levels ((p.items :: p.outer).map tally)

example : (start.after (words "1+2*-(")).map need = some 9 := by decide +kernel

/-- Does an operand that starts with `x` need more than `limit` levels? An illegal character
starts none. -/
def overloaded (limit : Nat) (p : Place) (x : Lexeme) : Bool :=
  p.due = .operand && !x.token.isIllegal && limit < p.need

/-- What the parser answers when it reads no further than to `x`. -/
def verdict (limit : Nat) (lenient : Bool) (p : Place) (x : Lexeme) : Except Cause Unit :=
  if p.overloaded limit x then .error (.nestingTooDeep limit)
  else (classify lenient x p.due p.outer.length).map fun _ => ()

section
variable {limit : Nat} {lenient : Bool} {p q r : Place} {x y : Lexeme} {xs ys rest : List Lexeme}

theorem after_cons : p.after (x :: xs) = (p.next x).bind fun q => q.after xs := rfl

theorem next_of_fault {cause : Cause} (h : classify false x p.due p.outer.length = .error cause) : p.next x = none := by
  rw [next, h]

theorem next_of_finish (h : classify false x p.due p.outer.length = .ok .finish) : p.next x = none := by
  rw [next, h]

/-- One step from place to place, by the kind of the lexeme. -/
inductive Leads (x : Lexeme) : Place → Place → Prop
  | literal {items : List Item} {outer : List (List Item)} {v : Binary64} :
      x.token = .number v → x.magnitude ≤ Binary64.maxExactInteger →
      Leads x ⟨.operand, items, outer⟩ ⟨.operator, .operand :: items, outer⟩
  | sign {items : List Item} {outer : List (List Item)} {s : Sign} :
      x.token.sign? = some s → Leads x ⟨.operand, items, outer⟩ ⟨.operand, .sign :: items, outer⟩
  | opening {items : List Item} {outer : List (List Item)} :
      x.token = .openParen → Leads x ⟨.operand, items, outer⟩ ⟨.operand, [], items :: outer⟩
  | operator {items : List Item} {outer : List (List Item)} {op : BinaryOp} :
      x.token.binaryOp? = some op → Leads x ⟨.operator, items, outer⟩ ⟨.operand, .operator op :: items, outer⟩
  | closing {inner items : List Item} {outer : List (List Item)} :
      x.token = .closeParen → Leads x ⟨.operator, inner, items :: outer⟩ ⟨.operator, .operand :: items, outer⟩

theorem leads_of_next (h : p.next x = some q) : Leads x p q := by
  obtain ⟨due, items, outer⟩ := p
  -- at a fault there is no next place
  have hfault : ∀ {cause}, classify false x due outer.length = .error cause → Leads x ⟨due, items, outer⟩ q :=
    fun hm => absurd ((next_of_fault hm).symm.trans h) nofun
  cases due with
  | operand =>
    cases hx : x.token with
    | number v =>
      by_cases hm : x.magnitude ≤ Binary64.maxExactInteger
      · rw [next, classify_number hx hm] at h
        cases h
        exact .literal hx hm
      · exact hfault (classify_literalTooLarge hx hm)
    | openParen =>
      rw [next, classify_openParen hx] at h
      cases h
      exact .opening hx
    | plus | minus =>
      have hsign := congrArg Token.sign? hx
      rw [next, classify_sign hsign] at h
      cases h
      exact .sign hsign
    | illegal character => exact hfault (classify_illegal hx _)
    | endOfInput => exact hfault (classify_endOfInput hx)
    | star => exact hfault (classify_unexpected hx (.inl rfl))
    | slash => exact hfault (classify_unexpected hx (.inr (.inl rfl)))
    | closeParen => exact hfault (classify_unexpected hx (.inr (.inr rfl)))
  | operator =>
    by_cases hlegal : ∀ character, x.token ≠ .illegal character
    · cases hop : x.token.binaryOp? with
      | some op =>
        rw [next, classify_operator hop] at h
        cases h
        exact .operator hop
      | none =>
        cases outer with
        | nil =>
          by_cases hx : x.token = .endOfInput
          · cases (next_of_finish (classify_end hx)).symm.trans h
          · exact hfault (classify_trailing hlegal hop hx)
        | cons around outer =>
          by_cases hx : x.token = .closeParen
          · rw [next, List.length_cons, classify_closeParen hx] at h
            cases h
            exact .closing hx
          · exact hfault (classify_unclosed hlegal hop hx)
    · obtain ⟨character, hx⟩ := not_forall_not.mp hlegal
      exact hfault (classify_illegal hx _)

theorem next_of_endOfInput (hx : x.token = .endOfInput) : p.next x = none := by
  cases hnext : p.next x with
  | none => rfl
  | some q =>
    cases leads_of_next hnext with
    | literal ht _ => cases hx.symm.trans ht
    | sign ht => rw [hx] at ht; cases ht
    | opening ht => cases hx.symm.trans ht
    | operator ht => rw [hx] at ht; cases ht
    | closing ht => cases hx.symm.trans ht

/-! ## Reading within a limit -/

/-- The lexemes lead from one place to another, and no operand needs more than `limit` levels. -/
inductive Reads (limit : Nat) : Place → List Lexeme → Place → Prop
  | nil {p : Place} : Reads limit p [] p
  | cons {p q r : Place} {x : Lexeme} {xs : List Lexeme} :
      p.overloaded limit x = false → p.next x = some q → Reads limit q xs r → Reads limit p (x :: xs) r

theorem reads_iff : Reads limit p xs r ↔ p.after xs = some r ∧
    ∀ earlier y later q, xs = earlier ++ y :: later → p.after earlier = some q → q.overloaded limit y = false := by
  induction xs generalizing p with
  | nil =>
    constructor
    · intro h
      cases h
      exact ⟨rfl, fun earlier y later q hsplit => by simp at hsplit⟩
    · rintro ⟨h, _⟩
      cases h
      exact .nil
  | cons x xs ih =>
    constructor
    · intro h
      cases h with
      | @cons _ q _ _ _ hx hnext hxs =>
        obtain ⟨hafter, hlater⟩ := ih.mp hxs
        refine ⟨by rw [after_cons, hnext]; exact hafter, fun earlier y later q' hsplit hq' => ?_⟩
        cases earlier with
        | nil =>
          cases hsplit
          cases hq'
          exact hx
        | cons z earlier =>
          cases hsplit
          rw [after_cons, hnext] at hq'
          exact hlater earlier y later q' rfl hq'
    · rintro ⟨hafter, hevery⟩
      rw [after_cons] at hafter
      obtain ⟨q, hnext, hafter⟩ := Option.bind_eq_some_iff.mp hafter
      refine .cons (hevery [] x xs p rfl rfl) hnext (ih.mpr ⟨hafter, fun earlier y later q' hsplit hq' => ?_⟩)
      refine hevery (x :: earlier) y later q' (congrArg _ hsplit) ?_
      rw [after_cons, hnext]
      exact hq'

/-- The lexemes `before` are read, and at `x` the reading comes to an end. -/
structure Halts (limit : Nat) (p : Place) (xs before : List Lexeme) (x : Lexeme) (rest : List Lexeme) (q : Place) :
    Prop where
  split : xs = before ++ x :: rest
  reads : p.Reads limit before q
  stuck : q.overloaded limit x = true ∨ q.next x = none

theorem exists_halts (h : Lexeme.Stream xs) (limit : Nat) (p : Place) :
    ∃ before x rest q, p.Halts limit xs before x rest q := by
  induction h generalizing p with
  | @last x hx => exact ⟨[], x, [], p, rfl, .nil, .inr (next_of_endOfInput hx)⟩
  | @cons x xs _ _ _ ih =>
    cases hover : p.overloaded limit x with
    | true => exact ⟨[], x, xs, p, rfl, .nil, .inl hover⟩
    | false =>
      cases hnext : p.next x with
      | none => exact ⟨[], x, xs, p, rfl, .nil, .inr hnext⟩
      | some q =>
        obtain ⟨before, y, rest, r, rfl, hreads, hstuck⟩ := ih q
        exact ⟨x :: before, y, rest, r, rfl, .cons hover hnext hreads, hstuck⟩

/-! ## Places and the scan -/

/-- The groups of the scan count the items of the place. Between operand and operator the scan
still holds the signs before the operand. -/
structure Counts (p : Place) (g : Group) (groups : List Group) : Prop where
  inner : g.Agrees (tally p.items) .factor
  exact : p.due = .operand → g = tally p.items
  outer : groups = p.outer.map tally

theorem counts_start : start.Counts .fresh [] := ⟨.refl _ _, fun _ => rfl, rfl⟩

variable {g : Group} {groups : List Group}

theorem Counts.crowded_eq (h : p.Counts g groups) (limit : Nat) (x : Lexeme) :
    crowded limit (g :: groups) x p.due = p.overloaded limit x := by
  cases hdue : p.due with
  | operator => simp [crowded, overloaded, hdue]
  | operand =>
    have hneed : levels (g :: groups) = p.need := by
      rw [h.exact hdue, h.outer, need, List.map_cons]
    simp [crowded, overloaded, hdue, hneed]

theorem Counts.length_eq (h : p.Counts g groups) : groups.length = p.outer.length := by
  rw [h.outer, List.length_map]

theorem Counts.levels_le (h : p.Counts g groups) (hdue : p.due = .operand) (hx : x.token.isIllegal = false)
    (hover : p.overloaded limit x = false) : levels (g :: groups) ≤ limit := by
  rw [← h.crowded_eq, hdue, crowded, hx, Bool.not_false, Bool.true_and, decide_eq_false_iff_not] at hover
  exact Nat.le_of_not_lt hover

theorem isIllegal_of_sign {s : Sign} (hx : x.token.sign? = some s) : x.token.isIllegal = false := by
  cases ht : x.token <;> simp [ht, Token.sign?] at hx <;> rfl

/-- The scan follows where a lexeme leads. -/
theorem Counts.next (h : p.Counts g groups) (hnext : p.next x = some q) :
    ∃ g' groups', q.Counts g' groups' ∧ ∀ limit lenient xs, p.overloaded limit x = false →
      scanWithin limit lenient p.due g groups (x :: xs) = scanWithin limit lenient q.due g' groups' xs := by
  have hlevels : ∀ limit, p.due = .operand → x.token.isIllegal = false → p.overloaded limit x = false →
      levels (g :: groups) ≤ limit := fun _ => h.levels_le
  obtain ⟨hinner, hexact, houter⟩ := h
  cases leads_of_next hnext with
  | literal hx hm =>
    refine ⟨g, groups, ⟨agrees_tally_operand hinner, nofun, houter⟩, fun limit lenient xs hover => ?_⟩
    exact scanWithin_number (hlevels limit rfl (by rw [hx]; rfl) hover) hx hm
  | sign hx =>
    refine ⟨g.addSign, groups, ⟨?_, ?_, houter⟩, fun limit lenient xs hover => ?_⟩
    · rw [tally_sign, hexact rfl]
      exact .refl _ _
    · rw [tally_sign, hexact rfl]
      exact fun _ => rfl
    · exact scanWithin_sign (hlevels limit rfl (isIllegal_of_sign hx) hover) hx
  | @opening items outer hx =>
    refine ⟨.fresh, g :: groups, ⟨.refl _ _, fun _ => rfl, ?_⟩, fun limit lenient xs hover => ?_⟩
    · rw [hexact rfl, houter]
      rfl
    · exact scanWithin_openParen (hlevels limit rfl (by rw [hx]; rfl) hover) hx
  | @operator items outer op hx =>
    have hcount : g.addOperator op = tally (.operator op :: items) := by
      rw [tally_operator, addOperator_congr hinner rfl]
    exact ⟨g.addOperator op, groups, ⟨hcount ▸ .refl _ _, fun _ => hcount, houter⟩,
      fun limit lenient xs _ => scanWithin_operator hx⟩
  | @closing inner items outer hx =>
    -- the signs before the group still stand in the scan, and are forgotten with the next operator
    rw [houter]
    exact ⟨tally items, outer.map tally, ⟨agrees_tally_operand (.refl _ _), nofun, rfl⟩,
      fun limit lenient xs _ => scanWithin_closeParen hx⟩

theorem Reads.scanWithin_eq (h : p.Reads limit xs q) (hp : p.Counts g groups) :
    ∃ g' groups', q.Counts g' groups' ∧ ∀ lenient rest,
      scanWithin limit lenient p.due g groups (xs ++ rest) = scanWithin limit lenient q.due g' groups' rest := by
  induction h generalizing g groups with
  | nil => exact ⟨g, groups, hp, fun lenient rest => rfl⟩
  | cons hx hnext _ ih =>
    obtain ⟨g', groups', hq, hstep⟩ := hp.next hnext
    obtain ⟨g'', groups'', hr, hrun⟩ := ih hq
    exact ⟨g'', groups'', hr, fun lenient rest => (hstep limit lenient _ hx).trans (hrun lenient rest)⟩

/-! ## Where no lexeme leads on -/

/-- Tolerance for what follows an expression turns one fault into its end. -/
theorem classify_lenient (x : Lexeme) (phase : Phase) (opened : Nat) :
    (classify true x phase opened = classify false x phase opened ∧
      ∀ token, classify true x phase opened ≠ .error (.unexpectedTrailingTokens token)) ∨
    phase = .operator ∧ opened = 0 ∧ classify true x phase opened = .ok .finish ∧
      classify false x phase opened = .error (.unexpectedTrailingTokens x.token.describe) := by
  cases phase with
  | operand =>
    refine .inl ⟨rfl, fun token => ?_⟩
    cases hx : x.token with
    | number v => by_cases hm : x.magnitude ≤ Binary64.maxExactInteger <;> simp [classify, hx, hm]
    | _ => simp [classify, hx]
  | operator => cases hx : x.token <;> cases opened <;> simp [classify, hx, Token.binaryOp?]

theorem eq_finish_of_next {move : Move} (hnext : p.next x = none)
    (hm : classify lenient x p.due p.outer.length = .ok move) : move = .finish := by
  have hstrict : move = .finish ∨ classify false x p.due p.outer.length = .ok move := by
    cases lenient with
    | false => exact .inr hm
    | true =>
      rcases classify_lenient x p.due p.outer.length with ⟨heq, _⟩ | ⟨_, _, hfinish, _⟩
      · exact .inr (heq.symm.trans hm)
      · cases hm.symm.trans hfinish
        exact .inl rfl
  rcases hstrict with hfinish | hm
  · exact hfinish
  · unfold Place.next at hnext
    rw [hm] at hnext
    cases move <;> first | rfl | cases hnext

theorem verdict_of_overloaded (h : p.overloaded limit x = true) :
    p.verdict limit lenient x = .error (.nestingTooDeep limit) := by
  rw [verdict, if_pos h]

theorem verdict_eq_error_iff {cause : Cause} (h : p.overloaded limit x = false) :
    p.verdict limit lenient x = .error cause ↔ classify lenient x p.due p.outer.length = .error cause := by
  unfold verdict
  rw [h]
  cases classify lenient x p.due p.outer.length <;> simp [Except.map]

theorem verdict_eq_ok_iff (h : p.overloaded limit x = false) :
    p.verdict limit lenient x = .ok () ↔ ∃ move, classify lenient x p.due p.outer.length = .ok move := by
  unfold verdict
  rw [h]
  cases classify lenient x p.due p.outer.length <;> simp [Except.map]

theorem Counts.scanWithin_stuck (h : p.Counts g groups) (hstuck : p.overloaded limit x = true ∨ p.next x = none) :
    scanWithin limit lenient p.due g groups (x :: xs) =
      match p.verdict limit lenient x with
      | .error cause => .error ⟨x.start, cause⟩
      | .ok _ => .ok (x :: xs) := by
  unfold scanWithin verdict
  rw [h.crowded_eq, h.length_eq]
  cases hover : p.overloaded limit x with
  | true => rfl
  | false =>
    have hnext : p.next x = none := hstuck.resolve_left (by rw [hover]; exact Bool.false_ne_true)
    cases hm : classify lenient x p.due p.outer.length with
    | error cause => rfl
    | ok move =>
      cases eq_finish_of_next hnext hm
      rfl

theorem Halts.scanWithin_eq (h : start.Halts limit xs ys x rest q) (lenient : Bool) :
    scanWithin limit lenient .operand .fresh [] xs =
      match q.verdict limit lenient x with
      | .error cause => .error ⟨x.start, cause⟩
      | .ok _ => .ok (x :: rest) := by
  obtain ⟨g, groups, hq, hrun⟩ := h.reads.scanWithin_eq counts_start
  rw [h.split]
  exact (hrun lenient (x :: rest)).trans (hq.scanWithin_stuck h.stuck)

end

end Place

/-! ## The parser's answer -/

section
variable {source : String} {g : Grouping} {lenient : Bool} {limit : Nat} {before rest : List Lexeme} {x : Lexeme}
  {p : Place} {cause : Cause} {t : Expr}

theorem parse_of_halts_error (h : Place.start.Halts limit (lexemes source) before x rest p)
    (hv : p.verdict limit lenient x = .error cause) : parse source ⟨g, lenient, limit⟩ = .error ⟨x.start, cause⟩ := by
  refine parse_eq_error_of_scanWithin ?_
  rw [h.scanWithin_eq, hv]

theorem exists_parse_of_halts_ok (h : Place.start.Halts limit (lexemes source) before x rest p)
    (hv : p.verdict limit lenient x = .ok ()) :
    ∃ t, parse source ⟨g, lenient, limit⟩ = .ok t ∧ Phrase g .expression (lexemes source) t (x :: rest) := by
  have hscan := h.scanWithin_eq lenient
  rw [hv] at hscan
  cases hp : parse source ⟨g, lenient, limit⟩ with
  | error e => cases hscan.symm.trans (scanWithin_of_parse_eq_error hp)
  | ok t =>
    obtain ⟨rest', hscan', ht⟩ := phrase_of_parse_eq_ok hp
    cases hscan.symm.trans hscan'
    exact ⟨t, rfl, ht⟩

/-- The tree depends on the lexemes of the expression alone. -/
theorem exists_parse_of_same_place {source' : String} {lenient' : Bool} {rest' : List Lexeme} {x' : Lexeme}
    (h : Place.start.Halts limit (lexemes source) before x rest p) (hv : p.verdict limit lenient x = .ok ())
    (h' : Place.start.Halts limit (lexemes source') before x' rest' p) (hv' : p.verdict limit lenient' x' = .ok ()) :
    ∃ t, parse source ⟨g, lenient, limit⟩ = .ok t ∧ parse source' ⟨g, lenient', limit⟩ = .ok t := by
  obtain ⟨t, ht, xs, hxs, hderives, hexact⟩ := exists_parse_of_halts_ok (g := g) h hv
  obtain ⟨t', ht', hphrase'⟩ := exists_parse_of_halts_ok (g := g) h' hv'
  cases List.append_cancel_right (h.split.symm.trans hxs)
  cases hphrase'.unique ⟨before, h'.split, hderives, hexact⟩
  exact ⟨t, ht, ht'⟩

theorem parse_eq_error_iff_halts {position : Nat} :
    parse source ⟨g, lenient, limit⟩ = .error ⟨position, cause⟩ ↔
      ∃ before x rest p, Place.start.Halts limit (lexemes source) before x rest p ∧
        p.verdict limit lenient x = .error cause ∧ x.start = position := by
  constructor
  · intro h
    obtain ⟨before, x, rest, p, hhalts⟩ := Place.exists_halts (stream_lexemes source) limit .start
    refine ⟨before, x, rest, p, hhalts, ?_⟩
    cases hv : p.verdict limit lenient x with
    | ok _ =>
      obtain ⟨t, ht, _⟩ := exists_parse_of_halts_ok (g := g) hhalts hv
      cases h.symm.trans ht
    | error cause' =>
      cases h.symm.trans (parse_of_halts_error hhalts hv)
      exact ⟨rfl, rfl⟩
  · rintro ⟨before, x, rest, p, hhalts, hv, rfl⟩
    exact parse_of_halts_error hhalts hv

end

end Calculator.Parse
