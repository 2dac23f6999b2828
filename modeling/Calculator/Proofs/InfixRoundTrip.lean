import Calculator.Expr.Count
import Calculator.Proofs.Language
import Calculator.Proofs.NumberText
import Calculator.Proofs.OperandLevels
import Calculator.Proofs.Spelling

/-!
# Reading the infix text of an expression

The text of an expression with whole constants spells its tokens, those are a
phrase with the tree of the expression in either grouping, and four levels for
each node on the longest path are enough to read it. So the parser gives the
expression back. Its own trees have whole constants.
-/

namespace Calculator

/-! ## Tokens of an expression -/

def BinaryOp.token : BinaryOp → Token
  | add => .plus
  | sub => .minus
  | mul => .star
  | div => .slash

def Sign.token : Sign → Token
  | plus => .plus
  | minus => .minus

theorem binaryOp?_token (op : BinaryOp) : op.token.binaryOp? = some op := by
  cases op <;> rfl

theorem sign?_token (s : Sign) : s.token.sign? = some s := by
  cases s <;> rfl

namespace Expr

/-- Every constant is a whole number that digits write and a double holds exactly. -/
def Whole : Expr → Prop
  | constant v => ∃ n ≤ Binary64.maxExactInteger, v = .ofNat n
  | binary _ l r => l.Whole ∧ r.Whole
  | unary _ e => e.Whole

/-- The tokens of the infix text. -/
def infixTokens : Expr → List Token
  | constant v => [.number v]
  | binary op l r => .openParen :: (l.infixTokens ++ op.token :: (r.infixTokens ++ [.closeParen]))
  | unary s e => s.token :: e.infixTokens

/-! ## From the text to the tokens -/

theorem spells_constant {n : Nat} (h : n ≤ Binary64.maxExactInteger) :
    Spells (constant (.ofNat n)).infixText.toList [.number (.ofNat n)] := by
  have hspells := Spells.digits (Nat.toDigits_ne_nil (b := 10) (n := n)) (fun _ => isDigit_of_mem_toDigits)
    (by rwa [Decimal.runValue, Nat.ofDigitChars_ten_toDigits])
  rw [Decimal.runValue, Nat.ofDigitChars_ten_toDigits] at hspells
  show Spells (Binary64.ofNat n).toText.toList _
  rwa [Binary64.toText_ofNat h, String.toList_ofList]

theorem spells_binary {op : BinaryOp} {l r : Expr} (hl : Spells l.infixText.toList l.infixTokens)
    (hr : Spells r.infixText.toList r.infixTokens) :
    Spells (binary op l r).infixText.toList (binary op l r).infixTokens := by
  have hclose : Spells [')'] [.closeParen] := Spells.nil.symbol rfl rfl fun _ => nofun
  have hright : Spells (' ' :: (r.infixText.toList ++ [')'])) (r.infixTokens ++ [.closeParen]) :=
    (hr.append hclose rfl).blank rfl
  have hrest : Spells (op.symbol.toList ++ ' ' :: (r.infixText.toList ++ [')']))
      (op.token :: (r.infixTokens ++ [.closeParen])) := by
    cases op <;> exact hright.symbol rfl rfl fun _ => nofun
  have hinner := hl.append (hrest.blank (c := ' ') rfl) rfl
  have hall : Spells ('(' :: (l.infixText.toList ++ ' ' :: (op.symbol.toList ++ ' ' :: (r.infixText.toList ++ [')']))))
      (.openParen :: (l.infixTokens ++ op.token :: (r.infixTokens ++ [.closeParen]))) :=
    hinner.symbol rfl rfl fun _ => nofun
  simpa [infixText, infixTokens] using hall

theorem spells_unary {s : Sign} {e : Expr} (h : Spells e.infixText.toList e.infixTokens) :
    Spells (unary s e).infixText.toList (unary s e).infixTokens := by
  show Spells (s.symbol ++ e.infixText).toList _
  rw [String.toList_append]
  cases s <;> exact h.symbol rfl rfl fun _ => nofun

theorem spells_infixText {t : Expr} (h : t.Whole) : Spells t.infixText.toList t.infixTokens := by
  induction t with
  | constant v =>
    obtain ⟨n, hn, hv⟩ := h
    rw [hv]
    exact spells_constant hn
  | binary op l r ihl ihr => exact spells_binary (ihl h.1) (ihr h.2)
  | unary s e ih => exact spells_unary (ih h)

end Expr

namespace Parse

/-! ## From the tokens to the tree -/

section
variable {g : Grouping} {l : Level} {ts us : List Token} {x : Token} {op : BinaryOp} {a b t : Expr}

/-- Two factors need no brackets in either grouping. -/
theorem Derives.join (hx : x.binaryOp? = some op) (ha : Derives g .factor ts a) (hb : Derives g .factor us b) :
    Derives g .expression (ts ++ x :: us) (.binary op a b) := by
  cases hop : op.isAdditive with
  | true =>
    cases g with
    | right => exact .right rfl hx hop (ha.ofFactor .term) (hb.ofFactor .expression)
    | left => exact .left rfl hx hop (ha.ofFactor .expression) (hb.ofFactor .term)
  | false =>
    have hmul : op.isMultiplicative = true := by cases op <;> first | rfl | cases hop
    refine .operand (by decide) ?_
    cases g with
    | right => exact .right rfl hx hmul ha (hb.ofFactor .term)
    | left => exact .left rfl hx hmul (ha.ofFactor .term) hb

theorem derives_infixTokens (g : Grouping) (t : Expr) : Derives g .factor t.infixTokens t := by
  induction t with
  | constant v => exact .number
  | binary op l r ihl ihr =>
    have hgroup := Derives.group (ihl.join (binaryOp?_token op) ihr)
    rwa [List.cons_append, List.append_assoc] at hgroup
  | unary s e ih => exact .sign (sign?_token s) ih

theorem passesIn_infixTokens (t : Expr) : PassesIn (4 * t.count.depth - 3) t.infixTokens := by
  induction t with
  | constant v => exact passesIn_number v
  | binary op l r ihl ihr =>
    -- both operands are read in the levels of the deeper one, below the four of the brackets
    have hl : PassesIn (4 * max l.count.depth r.count.depth - 3) l.infixTokens := ihl.mono (by omega)
    have hr : PassesIn (4 * max l.count.depth r.count.depth - 3) r.infixTokens := ihr.mono (by omega)
    refine (hl.bracketed (binaryOp?_token op) hr).mono ?_
    have := l.depth_pos
    simp only [Expr.count]
    omega
  | unary s e ih =>
    refine (ih.sign (sign?_token s)).mono ?_
    have := e.depth_pos
    simp only [Expr.count]
    omega

theorem parse_of_spells {chars : List Char} {o : Options} {n : Nat} (hchars : Spells chars ts)
    (ht : Derives o.grouping .expression ts t) (hn : PassesIn n ts) (hroom : n + 2 ≤ o.maxDepth) :
    parse (String.ofList chars) o = .ok t := by
  obtain ⟨htokens, hall⟩ := hchars.words_eq
  have hlevels : levels [.fresh] + n ≤ o.maxDepth + 1 := by
    simp only [levels, Group.levels, Group.fresh]
    omega
  refine parse_eq_ok_of_words (fun y _ => ?_) (htokens ▸ ht)
  obtain ⟨signs, hscan⟩ := hn o.maxDepth o.allowTrailing .fresh [] _ [y] htokens hall hlevels
  exact ⟨_, hscan⟩

/-! ## The constants of a tree -/

theorem Derives.whole (h : Derives g l ts t)
    (hts : ∀ v, .number v ∈ ts → ∃ n ≤ Binary64.maxExactInteger, v = .ofNat n) : t.Whole := by
  induction h with
  | operand _ _ ih => exact ih hts
  | right _ _ _ _ _ iha ihb => exact ⟨iha fun v hv => hts v (by simp [hv]), ihb fun v hv => hts v (by simp [hv])⟩
  | left _ _ _ _ _ iha ihb => exact ⟨iha fun v hv => hts v (by simp [hv]), ihb fun v hv => hts v (by simp [hv])⟩
  | number => exact hts _ List.mem_cons_self
  | group _ ih => exact ih fun v hv => hts v (by simp [hv])
  | sign _ _ ih => exact ih fun v hv => hts v (List.mem_cons_of_mem _ hv)

theorem whole_of_parse {source : String} {o : Options} (h : parse source o = .ok t) : t.Whole := by
  obtain ⟨d, hrun⟩ := (parse_eq_ok_iff source o).mp h
  obtain ⟨xs, hsplit, hderives, hexact⟩ := (run_reads hrun).1
  refine hderives.whole fun v hv => ?_
  obtain ⟨x, hx, hxv⟩ := List.mem_map.mp hv
  have hmem : x ∈ Lexeme.scanAll 0 source.toList := by
    rw [lexemes] at hsplit
    rw [hsplit]
    exact List.mem_append_left _ hx
  have hvalue := Lexeme.eq_ofNat_of_mem_scanAll 0 source.toList x hmem v hxv
  have hsmall := hexact x hx v hxv
  rw [hvalue] at hsmall
  exact ⟨x.magnitude, Binary64.isExactInteger_ofNat.mp hsmall, hvalue⟩

/-! ## The round trip -/

/-- An expression with whole constants is read back from its infix text, whatever the grouping, in
four levels for each node on its longest path. Every tree that the parser returns is of this kind. -/
theorem parse_infixText :
    (∀ t : Expr, t.Whole → ∀ o : Options, 4 * t.count.depth ≤ o.maxDepth → parse t.infixText o = .ok t) ∧
    ∀ source o t, parse source o = .ok t → t.Whole := by
  refine ⟨fun t hwhole o hlimit => ?_, fun source o t => whole_of_parse⟩
  have hroom : 4 * t.count.depth - 3 + 2 ≤ o.maxDepth := by
    have := t.depth_pos
    omega
  have hparse := parse_of_spells (o := o) (Expr.spells_infixText hwhole)
    ((derives_infixTokens o.grouping t).ofFactor .expression) (passesIn_infixTokens t) hroom
  rwa [String.ofList_toList] at hparse

theorem parse_infixText_signs :
    ∃ t : Expr, t.Whole ∧ 4 * t.count.depth ≤ 20 ∧ t.infixText = "-(12 * -+9007199254740991)" ∧
      parse "-(12 * -+9007199254740991)" ⟨.left, true, 20⟩ = .ok t := by
  let signed : Expr := .unary .minus (.unary .plus (.constant (.ofNat 9007199254740991)))
  let t : Expr := .unary .minus (.binary .mul (.constant (.ofNat 12)) signed)
  have hwhole : t.Whole := ⟨⟨12, by decide, rfl⟩, ⟨9007199254740991, by decide, rfl⟩⟩
  have htext : t.infixText = "-(12 * -+9007199254740991)" := by decide +kernel
  have hparse := parse_infixText.1 t hwhole ⟨.left, true, 20⟩ (by decide)
  rw [htext] at hparse
  exact ⟨t, hwhole, by decide, htext, hparse⟩

end

end Parse

end Calculator
