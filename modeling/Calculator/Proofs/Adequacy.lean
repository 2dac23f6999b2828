import Calculator.Proofs.Runs

/-!
# The rules cover the productions

Every run of a production from a cursor that is ready is a run by the rules
(`follows_production`), and so is that of a whole source (`ensures_document`).
The induction is on the levels that a production may still open; they outlast
the depth limit. A chain is one link when it groups to the right, and an
induction on the bound of its links when it groups to the left.
-/

namespace Calculator.Parse

/-! ## The productions by level -/

def production (o : Options) : Level → (levels : Nat) → Parser Expr
  | .expression => expression o
  | .term => term o
  | .factor => factor o

section
variable {o : Options} {l : Level} {operand sameLevel : Parser Expr} {c : Cursor} {left : Expr}

theorem production_zero (o : Options) (l : Level) : production o l 0 = tooDeep o := by
  cases l <;> rfl

theorem production_succ (o : Options) (hl : l ≠ .factor) (levels : Nat) :
    production o l (levels + 1) = nested o (do
      let left ← production o l.tighter levels
      chain o l.joins (production o l.tighter levels) (production o l levels) left) := by
  cases l with
  | expression => rfl
  | term => rfl
  | factor => exact absurd rfl hl

/-! ## One link of a chain -/

theorem Level.stops_or_joins {x : Token} (h : l.tighter.Stops x) :
    l.Stops x ∨ ∃ op, x.binaryOp? = some op ∧ l.joins op = true := by
  cases hx : x.binaryOp? with
  | none => exact .inl fun op hop => by rw [hx] at hop; cases hop
  | some op =>
    cases hc : l.covers op with
    | false =>
      refine .inl fun op' hop => ?_
      cases hx.symm.trans hop
      exact hc
    | true =>
      rcases joins_or_tighter hc with hj | ht
      · exact .inr ⟨op, rfl, hj⟩
      · rw [h op hx] at ht
        cases ht

theorem chainUpTo_of_stops (h : l.Stops c.current.token) (bound : Nat) :
    chainUpTo o l.joins operand sameLevel bound left c = .ok left c := by
  cases bound with
  | zero => rfl
  | succ bound =>
    have hj : ∀ op, c.current.token.binaryOp? = some op → ¬ l.joins op = true := fun op hx =>
      Bool.eq_false_iff.mp (h.joins_eq_false hx)
    obtain ⟨⟨token, text, start, stop⟩, unread, pulled, depth⟩ := c
    cases token with
    | plus | minus | star | slash => exact congrFun (if_neg (hj _ rfl)) _
    | _ => rfl

section
variable {op : BinaryOp} {bound : Nat} {ok : Expr → Cursor → Prop} {bad : Error → Cursor → Prop}
  (hx : c.current.token.binaryOp? = some op) (hj : l.joins op = true)
include hx hj

theorem ensures_link_right (hg : o.grouping = .right) :
    Ensures (chainUpTo o l.joins operand sameLevel (bound + 1) left) c ok bad ↔
      Ensures advance c (fun _ d => Ensures sameLevel d (fun b d =>
        Ensures (chainUpTo o l.joins operand sameLevel bound (.binary op left b)) d ok bad) bad) bad := by
  simp [chainUpTo, hx, hj, hg]

theorem ensures_link_left (hg : o.grouping = .left) :
    Ensures (chainUpTo o l.joins operand sameLevel (bound + 1) left) c ok bad ↔
      Ensures advance c (fun _ d => Ensures (nested o (do
        let b ← operand
        chainUpTo o l.joins operand sameLevel bound (.binary op left b))) d ok bad) bad := by
  simp [chainUpTo, hx, hj, hg]

end

/-! ## Chains -/

/-- With at least `floor` levels open, `p` runs as the rules for level `l` say. -/
def Follows (o : Options) (l : Level) (floor : Nat) (p : Parser Expr) : Prop :=
  ∀ c, Ready c.ahead → floor ≤ c.depth →
    Ensures p c (Parses o (.production l) c) (Fails o (.production l) c)

theorem Follows.stands {floor : Nat} {p : Parser Expr} {d : Cursor} {t : Expr} (h : Follows o l floor p)
    (hc : Ready c.ahead) (hfloor : floor ≤ c.depth) (ht : p c = .ok t d) : Stands l c d := by
  have hparses : Parses o (.production l) c t d := (h c hc hfloor).of_ok ht
  exact hparses.stands hc

theorem ensures_chain_of_stops {bound : Nat} (hs : l.Stops c.current.token) :
    Ensures (chainUpTo o l.joins operand sameLevel bound left) c
      (Parses o (.chain l left) c) (Fails o (.chain l left) c) := by
  unfold Ensures
  rw [chainUpTo_of_stops hs]
  exact .stop hs

theorem ensures_chain_right {floor : Nat} (hg : o.grouping = .right)
    (hsame : Follows o l floor sameLevel) (hfloor : floor ≤ c.depth) (hc : Ready c.ahead)
    (hs : l.tighter.Stops c.current.token) :
    Ensures (chain o l.joins operand sameLevel left) c
      (Parses o (.chain l left) c) (Fails o (.chain l left) c) := by
  show Ensures (chainUpTo o l.joins operand sameLevel c.unread.length left) c _ _
  rcases Level.stops_or_joins hs with hs | ⟨op, hx, hj⟩
  · exact ensures_chain_of_stops hs
  have hunread := hc.unread (ne_endOfInput_of_binaryOp hx)
  obtain ⟨y, ys, hy⟩ := hunread.exists_cons
  rw [hy, List.length_cons, ensures_link_right hx hj hg]
  refine (ensures_advance hunread).mono (fun _ d hp => ?_) (fun e d => .illegalOperand hx hj)
  have hd := hp.ready hunread
  refine (hsame d hd (hp.depth ▸ hfloor)).mono (fun b e hb => ?_) (fun e f => .right hg hx hj hp)
  -- the operand was all of the rest, so there is no second link
  have hstops : l.Stops e.current.token := (hb.stands hd).stops
  unfold Ensures
  rw [chainUpTo_of_stops hstops]
  exact .right hg hx hj hp hb

theorem ensures_chain_left {floor : Nat} (hg : o.grouping = .left)
    (hoperand : Follows o l.tighter floor operand) (bound : Nat) :
    ∀ (c : Cursor) (left : Expr), c.unread.length ≤ bound → floor ≤ c.depth → Ready c.ahead →
      l.tighter.Stops c.current.token →
      Ensures (chainUpTo o l.joins operand sameLevel bound left) c
        (Parses o (.chain l left) c) (Fails o (.chain l left) c) := by
  -- each link pulls an operator, so the links do not outnumber the unread lexemes
  induction bound with
  | zero =>
    intro c left hbound _ hc hs
    have hend : c.current.token = .endOfInput := by
      refine Classical.byContradiction fun hne => ?_
      obtain ⟨x, rest, h⟩ := (hc.unread hne).exists_cons
      simp [h] at hbound
    refine ensures_chain_of_stops fun op hop => ?_
    rw [hend] at hop
    cases hop
  | succ bound ih =>
    intro c left hbound hfloor hc hs
    rcases Level.stops_or_joins hs with hs | ⟨op, hx, hj⟩
    · exact ensures_chain_of_stops hs
    have hunread := hc.unread (ne_endOfInput_of_binaryOp hx)
    rw [ensures_link_left hx hj hg]
    refine (ensures_advance hunread).mono (fun _ d hp => ?_) (fun e d => .illegalOperand hx hj)
    have hd := hp.ready hunread
    have hdepth := hp.depth
    rw [ensures_nested]
    by_cases hm : o.maxDepth ≤ d.depth
    · rw [if_pos hm]
      exact .tooManyLinks hg hx hj hp hm
    rw [if_neg hm, ensures_bind]
    have hlt := Nat.lt_of_not_le hm
    refine (hoperand d.enter hd (by rw [Cursor.depth_enter]; omega)).mono (fun b e hb => ?_)
      (fun e f => .leftOperand hg hx hj hp hlt)
    have he := hb.stands hd
    have hdeeper := he.depth
    have hlen := hp.length
    have hshorter := he.length_le
    rw [Cursor.depth_enter] at hdeeper
    rw [Cursor.unread_enter] at hshorter
    exact (ih e (.binary op left b) (by omega) (by omega) he.ready he.stops).mono
      (fun t f => .left hg hx hj hp hlt hb) (fun e f => .left hg hx hj hp hlt hb)

theorem ensures_chain {floor : Nat} (hoperand : Follows o l.tighter floor operand)
    (hsame : Follows o l floor sameLevel) (hfloor : floor ≤ c.depth) (hc : Ready c.ahead)
    (hs : l.tighter.Stops c.current.token) (first : Expr) :
    Ensures (chain o l.joins operand sameLevel first) c
      (Parses o (.chain l first) c) (Fails o (.chain l first) c) := by
  cases hg : o.grouping with
  | right => exact ensures_chain_right hg hsame hfloor hc hs
  | left => exact ensures_chain_left hg hoperand _ c first (Nat.le_refl _) hfloor hc hs

/-! ## Productions -/

theorem ensures_literal {v : Binary64} (hm : c.depth < o.maxDepth) (hc : Ready c.ahead)
    (hx : c.current.token = .number v) :
    Ensures (literal v) c.enter (fun t d => Parses o (.production .factor) c t d.leave)
      (fun e d => Fails o (.production .factor) c e d.leave) := by
  have hunread : Lexeme.Stream c.enter.unread := hc.unread (by rw [hx]; exact nofun)
  unfold literal
  cases hv : v.isExactInteger with
  | true =>
    simp only [ite_true, ensures_bind, ensures_pure]
    exact (ensures_advance hunread).mono (fun _ d hp => .number hm hx hv hp)
      (fun e d hr => .illegalNext hm (.inl ⟨v, hx, hv⟩) hr)
  | false =>
    simp only [Bool.false_eq_true, ite_false, ensures_bind, ensures_current, ensures_fail]
    exact .literalTooLarge hm hx hv

theorem ensures_closeParen {ok : Unit → Cursor → Prop} {bad : Error → Cursor → Prop} (hc : Ready c.ahead)
    (hpull : ∀ d, c.current.token = .closeParen → c.Pulls d → ok () d)
    (hillegal : ∀ e d, c.current.token = .closeParen → c.Refuses e d → bad e d)
    (hopen : c.current.token ≠ .closeParen → bad ⟨c.current.start, .expectedClosingParen⟩ c) :
    Ensures closeParen c ok bad := by
  unfold closeParen
  simp only [ensures_bind, ensures_current]
  by_cases hx : c.current.token = .closeParen
  · rw [if_pos hx]
    have hunread : Lexeme.Stream c.unread := hc.unread (by rw [hx]; decide)
    exact (ensures_advance hunread).mono (fun _ d => hpull d hx) (fun e d => hillegal e d hx)
  · rw [if_neg hx, ensures_fail]
    exact hopen hx

theorem ensures_group {floor : Nat} {p : Parser Expr} (hp : Follows o .expression floor p)
    (hm : c.depth < o.maxDepth) (hfloor : floor ≤ c.depth + 1) (hc : Ready c.ahead)
    (hx : c.current.token = .openParen) :
    Ensures (do
        advance
        let inner ← p
        closeParen
        return inner) c.enter
      (fun t d => Parses o (.production .factor) c t d.leave)
      (fun e d => Fails o (.production .factor) c e d.leave) := by
  have hunread : Lexeme.Stream c.enter.unread := hc.unread (by rw [hx]; decide)
  simp only [ensures_bind, ensures_pure]
  refine (ensures_advance hunread).mono (fun _ d hd => ?_)
    (fun e d hr => .illegalNext hm (.inr (.inl hx)) hr)
  have hready := hd.ready hunread
  refine (hp d hready (hd.depth ▸ hfloor)).mono (fun t e ht => ?_) (fun e f => .inner hm hx hd)
  exact ensures_closeParen (ht.stands hready).ready (fun f hy hq => .group hm hx hd ht hy hq)
    (fun e f hy hr => .illegalAfter hm hx hd ht hy hr) (fun hy => .unclosed hm hx hd ht hy)

theorem ensures_sign {floor : Nat} {p : Parser Expr} {s : Sign} (hp : Follows o .factor floor p)
    (hm : c.depth < o.maxDepth) (hfloor : floor ≤ c.depth + 1) (hc : Ready c.ahead)
    (hx : c.current.token.sign? = some s) :
    Ensures (do
        advance
        return .unary s (← p)) c.enter
      (fun t d => Parses o (.production .factor) c t d.leave)
      (fun e d => Fails o (.production .factor) c e d.leave) := by
  have hunread : Lexeme.Stream c.enter.unread := hc.unread (ne_endOfInput_of_sign hx)
  simp only [ensures_bind, ensures_pure]
  refine (ensures_advance hunread).mono (fun _ d hd => ?_)
    (fun e d hr => .illegalNext hm (.inr (.inr ⟨s, hx⟩)) hr)
  exact (hp d (hd.ready hunread) (hd.depth ▸ hfloor)).mono (fun t e => .sign hm hx hd)
    (fun e f => .sign hm hx hd)

theorem follows_factor {floor levels : Nat} (hexpression : Follows o .expression (floor + 1) (expression o levels))
    (hfactor : Follows o .factor (floor + 1) (factor o levels)) :
    Follows o .factor floor (factor o (levels + 1)) := by
  intro c hc hfloor
  have hdeeper := Nat.succ_le_succ hfloor
  unfold factor
  rw [ensures_nested]
  by_cases hm : o.maxDepth ≤ c.depth
  · rw [if_pos hm]
    exact .tooDeep hm
  rw [if_neg hm, ensures_bind, ensures_current]
  have hlt := Nat.lt_of_not_le hm
  cases hx : c.current.token with
  | number v =>
    simp only [Cursor.current_enter, hx]
    exact ensures_literal hlt hc hx
  | openParen =>
    simp only [Cursor.current_enter, hx]
    exact ensures_group hexpression hlt hdeeper hc hx
  | plus =>
    simp only [Cursor.current_enter, hx]
    exact ensures_sign hfactor hlt hdeeper hc (by rw [hx]; rfl)
  | minus =>
    simp only [Cursor.current_enter, hx]
    exact ensures_sign hfactor hlt hdeeper hc (by rw [hx]; rfl)
  | endOfInput =>
    simp only [Cursor.current_enter, hx, ensures_fail]
    exact .endOfInput hlt hx
  | star =>
    simp only [Cursor.current_enter, hx, ensures_fail]
    exact .unexpected hlt hx (.inl rfl)
  | slash =>
    simp only [Cursor.current_enter, hx, ensures_fail]
    exact .unexpected hlt hx (.inr (.inl rfl))
  | closeParen =>
    simp only [Cursor.current_enter, hx, ensures_fail]
    exact .unexpected hlt hx (.inr (.inr rfl))
  | illegal character => exact absurd hx (hc.2 _ rfl character)

theorem follows_chain {floor levels : Nat} (hl : l ≠ .factor)
    (htighter : Follows o l.tighter (floor + 1) (production o l.tighter levels))
    (hsame : Follows o l (floor + 1) (production o l levels)) :
    Follows o l floor (production o l (levels + 1)) := by
  intro c hc hfloor
  have hdeeper := Nat.succ_le_succ hfloor
  rw [production_succ o hl, ensures_nested]
  by_cases hm : o.maxDepth ≤ c.depth
  · rw [if_pos hm]
    exact .tooDeep hm
  rw [if_neg hm, ensures_bind]
  have hlt := Nat.lt_of_not_le hm
  refine (htighter c.enter hc hdeeper).mono (fun a d ha => ?_) (fun e d => .operand hl hlt)
  have hd := ha.stands (c := c.enter) hc
  have hfloor' : floor + 1 ≤ d.depth := hd.depth ▸ hdeeper
  have hchain := ensures_chain htighter hsame hfloor' hd.ready hd.stops a
  exact hchain.mono (fun t e => .operand hl hlt ha) (fun e f => .chain hl hlt ha)

theorem Follows.mono {floor floor' : Nat} {p : Parser Expr} (h : Follows o l floor p) (hf : floor ≤ floor') :
    Follows o l floor' p :=
  fun c hc hfloor => h c hc (Nat.le_trans hf hfloor)

theorem follows_production (o : Options) (levels : Nat) :
    ∀ l, Follows o l (o.maxDepth - levels) (production o l levels) := by
  induction levels with
  | zero =>
    intro l c _ hfloor
    rw [production_zero, ensures_tooDeep]
    exact .tooDeep hfloor
  | succ levels ih =>
    have hdeeper : ∀ l, Follows o l (o.maxDepth - (levels + 1) + 1) (production o l levels) :=
      fun l => (ih l).mono (by omega)
    intro l
    cases l with
    | expression => exact follows_chain (by decide) (hdeeper .term) (hdeeper .expression)
    | term => exact follows_chain (by decide) (hdeeper .factor) (hdeeper .term)
    | factor => exact follows_factor (hdeeper .expression) (hdeeper .factor)

/-! ## Whole sources -/

theorem ensures_document (o : Options) (hc : Lexeme.Stream c.unread) :
    Ensures (document o) c
      (fun t d => ∃ b, c.Pulls b ∧ Parses o (.production .expression) b t d ∧
        (o.allowTrailing = true ∨ d.current.token = .endOfInput))
      (fun e d => c.Refuses e d ∨ ∃ b, c.Pulls b ∧ (Fails o (.production .expression) b e d ∨
        ∃ t, Parses o (.production .expression) b t d ∧ o.allowTrailing = false ∧
          d.current.token ≠ .endOfInput ∧
          e = ⟨d.current.start, .unexpectedTrailingTokens d.current.token.describe⟩)) := by
  unfold document
  rw [ensures_bind]
  refine (ensures_advance hc).mono (fun _ b hp => ?_) (fun e d => .inl)
  rw [ensures_bind]
  have hexpression := follows_production o o.maxDepth .expression b (hp.ready hc) (by omega)
  refine Ensures.mono hexpression (fun t d ht => ?_) (fun e d he => .inr ⟨b, hp, .inl he⟩)
  rw [ensures_bind, ensures_current]
  by_cases hend : o.allowTrailing = true ∨ d.current.token = .endOfInput
  · simp only [Bool.or_eq_true, decide_eq_true_eq, if_pos hend, ensures_pure]
    exact ⟨b, hp, ht, hend⟩
  · rw [if_neg (by simpa only [Bool.or_eq_true, decide_eq_true_eq] using hend), ensures_fail]
    rw [not_or, Bool.not_eq_true] at hend
    exact .inr ⟨b, hp, .inr ⟨t, ht, hend.1, hend.2, rfl⟩⟩

end

end Calculator.Parse
