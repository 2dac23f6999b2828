import Calculator.Proofs.FoldedHeight
import Calculator.Proofs.Height
import Calculator.Proofs.Language
import Calculator.Proofs.OperandLevels
import Calculator.Proofs.Spelling

/-!
# The bound on the height is reached

Under every limit some source has a tree as tall as `Level.tallest` allows. It
starts with the tallest factor of the levels left, and as many factors and then
terms as fit are folded below it.
-/

namespace Calculator.Parse

/-! ## Folds of the number one -/

def oneLeaf : Expr := .constant (Binary64.ofNat 1)

/-- So many operators `x`, each with a one behind it. -/
def links (x : Token) : Nat → List Token
  | 0 => []
  | n + 1 => x :: .one :: links x n

def folded (op : BinaryOp) : Nat → Expr → Expr
  | 0, a => a
  | n + 1, a => folded op n (.binary op a oneLeaf)

def Group.addOperators (op : BinaryOp) : Nat → Group → Group
  | 0, g => g
  | n + 1, g => Group.addOperators op n (g.addOperator op)

section
variable {l : Level} {ts : List Token} {x : Token} {op : BinaryOp} {a : Expr} {n : Nat}

theorem depth_folded (op : BinaryOp) (n : Nat) (a : Expr) :
    (folded op n a).count.depth = a.count.depth + n := by
  induction n generalizing a with
  | zero => rfl
  | succ n ih =>
    have ha := a.depth_pos
    have hone : oneLeaf.count.depth = 1 := rfl
    have hnode : (Expr.binary op a oneLeaf).count.depth = a.count.depth + 1 := by
      simp only [Expr.count, hone]
      omega
    rw [folded, ih, hnode]
    omega

theorem plain_links (hx : x.Plain) (n : Nat) : ∀ y ∈ links x n, y.Plain := by
  induction n with
  | zero => exact fun _ hy => nomatch hy
  | succ n ih => exact List.forall_mem_cons.mpr ⟨hx, List.forall_mem_cons.mpr ⟨rfl, ih⟩⟩

theorem derives_one : ∀ l, Derives .left l [.one] oneLeaf := Derives.number.ofFactor

theorem Derives.fold (hx : x.binaryOp? = some op) (hj : l.joins op = true) (n : Nat)
    (h : Derives .left l ts a) : Derives .left l (ts ++ links x n) (folded op n a) := by
  induction n generalizing ts a with
  | zero => rwa [links, List.append_nil]
  | succ n ih =>
    have hlonger := ih (Derives.left rfl hx hj h (derives_one l.tighter))
    rw [List.append_assoc] at hlonger
    exact hlonger

end

/-! ## The levels they take -/

section
variable {limit : Nat} {lenient : Bool} {g : Group} {outer : List Group} {xs rest : List Lexeme} {x : Token}
  {op : BinaryOp}

theorem addOperators_mul (g : Group) (n : Nat) :
    g.addOperators .mul (n + 1) = ⟨g.additive, g.multiplicative + (n + 1), 0⟩ := by
  induction n generalizing g with
  | zero => rfl
  | succ n ih =>
    rw [Group.addOperators, ih]
    simp only [Group.addOperator, BinaryOp.isAdditive, Bool.false_eq_true, ite_false, Group.mk.injEq, true_and,
      and_true]
    omega

theorem addOperators_add (g : Group) (n : Nat) :
    g.addOperators .add (n + 1) = ⟨g.additive + (n + 1), 0, 0⟩ := by
  induction n generalizing g with
  | zero => rfl
  | succ n ih =>
    rw [Group.addOperators, ih]
    simp only [Group.addOperator, BinaryOp.isAdditive, ite_true, Group.mk.injEq, and_true]
    omega

theorem additive_addOperators_mul (g : Group) (n : Nat) : (g.addOperators .mul n).additive = g.additive := by
  cases n with
  | zero => rfl
  | succ n => rw [addOperators_mul]

theorem scanWithin_links (hx : x.binaryOp? = some op) (n : Nat) (hxs : xs.map Lexeme.token = links x n)
    (hall : ∀ y ∈ xs, y.Readable) (hroom : ∀ k < n, levels (g.addOperators op (k + 1) :: outer) ≤ limit) :
    scanWithin limit lenient .operator g outer (xs ++ rest) =
      scanWithin limit lenient .operator (g.addOperators op n) outer rest := by
  induction n generalizing g xs with
  | zero =>
    obtain rfl := List.map_eq_nil_iff.mp hxs
    rfl
  | succ n ih =>
    obtain ⟨y, ys, rfl, hy, hys⟩ := List.map_eq_cons_iff.mp hxs
    obtain ⟨z, zs, rfl, hz, hzs⟩ := List.map_eq_cons_iff.mp hys
    rw [List.forall_mem_cons, List.forall_mem_cons] at hall
    have hone : levels (g.addOperator op :: outer) ≤ limit := hroom 0 (Nat.zero_lt_succ n)
    have hmore : ∀ k < n, levels ((g.addOperator op).addOperators op (k + 1) :: outer) ≤ limit :=
      fun k hk => hroom (k + 1) (Nat.succ_lt_succ hk)
    rw [List.cons_append, List.cons_append, scanWithin_operator (hy ▸ hx),
      scanWithin_number hone hz (hall.2.1.2 _ hz), ih hzs hall.2.2 hmore]
    rfl

def chained (n : Nat) (ts : List Token) : List Token := ts ++ links .star n ++ links .plus n

theorem PassesIn.chained {n : Nat} {ts : List Token} (h : PassesIn (n + 1) ts)
    (hxs : xs.map Lexeme.token = chained n ts) (hall : ∀ x ∈ xs, x.Readable)
    (hroom : n + 3 + levels outer ≤ limit) (lenient : Bool) (rest : List Lexeme) :
    ∃ g, scanWithin limit lenient .operand .fresh outer (xs ++ rest) =
      scanWithin limit lenient .operator g outer rest := by
  obtain ⟨bs, cs, rfl, hbs, hcs⟩ := List.map_eq_append_iff.mp hxs
  obtain ⟨as, bs, rfl, has, hbs⟩ := List.map_eq_append_iff.mp hbs
  rw [List.forall_mem_append, List.forall_mem_append] at hall
  have hfirst : levels (.fresh :: outer) + (n + 1) ≤ limit + 1 := by
    simp only [levels_cons, Group.levels, Group.fresh]
    omega
  obtain ⟨signs, hfactor⟩ := h limit lenient .fresh outer as (bs ++ (cs ++ rest)) has hall.1.1 hfirst
  have hmul : ∀ k < n, levels (Group.addOperators .mul (k + 1) ⟨0, 0, signs⟩ :: outer) ≤ limit := by
    intro k hk
    simp only [addOperators_mul, levels_cons, Group.levels]
    omega
  have hadd : ∀ g : Group, g.additive = 0 → ∀ k < n, levels (g.addOperators .add (k + 1) :: outer) ≤ limit := by
    intro g hg k hk
    simp only [addOperators_add, levels_cons, Group.levels, hg]
    omega
  have hproduct := additive_addOperators_mul ⟨0, 0, signs⟩ n
  have hstars := hfactor.trans (scanWithin_links rfl n hbs hall.1.2 hmul)
  have hpluses := hstars.trans (scanWithin_links rfl n hcs hall.2 (hadd _ hproduct))
  rw [List.append_assoc, List.append_assoc]
  exact ⟨_, hpluses⟩

theorem PassesIn.group {n : Nat} {ts : List Token} (h : PassesIn (n + 1) ts) :
    PassesIn (n + 4) (.openParen :: Parse.chained n ts ++ [.closeParen]) := by
  intro limit lenient g outer xs rest hxs hall hroom
  obtain ⟨y, ys, rfl, hy, hys⟩ := List.map_eq_cons_iff.mp hxs
  obtain ⟨zs, ws, rfl, hzs, hws⟩ := List.map_eq_append_iff.mp hys
  obtain ⟨w, ws, rfl, hw, hws⟩ := List.map_eq_cons_iff.mp hws
  obtain rfl := List.map_eq_nil_iff.mp hws
  rw [List.forall_mem_cons, List.forall_mem_append] at hall
  have hfit : levels (g :: outer) ≤ limit := by omega
  have hdeeper : n + 3 + levels (g :: outer) ≤ limit := by omega
  obtain ⟨k, hinner⟩ := h.chained hzs hall.2.1 hdeeper lenient ([w] ++ rest)
  refine ⟨g.signs, ?_⟩
  rw [List.cons_append, scanWithin_openParen hfit hy, List.append_assoc, hinner, List.singleton_append,
    scanWithin_closeParen hw]

end

/-! ## The tallest trees -/

/-- A factor of `n` levels with a tree of the greatest height. -/
structure Tall (n : Nat) (ts : List Token) (t : Expr) : Prop where
  derives : Derives .left .factor ts t
  plain : ∀ x ∈ ts, x.Plain
  passes : PassesIn n ts
  depth : t.count.depth = tallestFactor n

section
variable {n : Nat} {ts : List Token} {t : Expr}

theorem tall_one : Tall 1 [.one] oneLeaf :=
  ⟨derives_one .factor, List.forall_mem_singleton.mpr rfl, passesIn_number _, rfl⟩

theorem Tall.sign (h : Tall n ts t) (hn : tallestFactor (n + 1) = tallestFactor n + 1) :
    Tall (n + 1) (.minus :: ts) (.unary .minus t) := by
  refine ⟨.sign rfl h.derives, List.forall_mem_cons.mpr ⟨trivial, h.plain⟩, h.passes.sign rfl, ?_⟩
  rw [hn, ← h.depth, Nat.add_comm]
  rfl

theorem derives_chained (h : Derives .left .factor ts t) (n : Nat) :
    Derives .left .expression (chained n ts) (folded .add n (folded .mul n t)) := by
  have hproduct : Derives .left .term (ts ++ links .star n) (folded .mul n t) := (h.ofFactor .term).fold rfl rfl n
  have hexpression : Derives .left .expression (ts ++ links .star n) (folded .mul n t) :=
    .operand (by decide) hproduct
  exact hexpression.fold rfl rfl n

theorem plain_chained (h : ∀ x ∈ ts, x.Plain) (n : Nat) : ∀ x ∈ chained n ts, x.Plain := by
  rw [chained, List.forall_mem_append, List.forall_mem_append]
  have hstar : Token.Plain .star := trivial
  have hplus : Token.Plain .plus := trivial
  exact ⟨⟨h, plain_links hstar n⟩, plain_links hplus n⟩

theorem Tall.group (h : Tall (n + 1) ts t) (hn : tallestFactor (n + 4) = tallestFactor (n + 1) + 2 * n) :
    Tall (n + 4) (.openParen :: chained n ts ++ [.closeParen]) (folded .add n (folded .mul n t)) := by
  refine ⟨.group (derives_chained h.derives n), ?_, h.passes.group, ?_⟩
  · exact List.forall_mem_append.mpr
      ⟨List.forall_mem_cons.mpr ⟨trivial, plain_chained h.plain n⟩, List.forall_mem_singleton.mpr trivial⟩
  · rw [depth_folded, depth_folded, h.depth, hn]
    omega

theorem exists_tall : ∀ n, ∃ ts t, Tall (n + 1) ts t
  | 0 => ⟨_, _, tall_one⟩
  | 1 => ⟨_, _, tall_one.sign rfl⟩
  | 2 => ⟨_, _, (tall_one.sign rfl).sign rfl⟩
  | n + 3 => by
    obtain ⟨ts, t, hsigned⟩ := exists_tall (n + 2)
    obtain ⟨us, u, hgrouped⟩ := exists_tall n
    by_cases hle : tallestFactor (n + 1) + 2 * n ≤ tallestFactor (n + 3) + 1
    · exact ⟨_, _, hsigned.sign (Nat.max_eq_left hle)⟩
    · exact ⟨_, _, hgrouped.group (Nat.max_eq_right (Nat.le_of_not_le hle))⟩

theorem exists_tallest (n : Nat) :
    ∃ source t, parse source ⟨.left, false, n + 3⟩ = .ok t ∧
      t.count.depth = Level.expression.tallest (n + 3) := by
  obtain ⟨ts, t, ht⟩ := exists_tall n
  obtain ⟨source, hwords, hall⟩ := exists_source (plain_chained ht.plain n)
  have hroom : n + 3 + levels [] ≤ n + 3 := Nat.le_refl _
  have hderives := derives_chained ht.derives n
  rw [← hwords] at hderives
  refine ⟨source, _, parse_eq_ok_of_words (fun y _ => ht.passes.chained hwords hall hroom false [y]) hderives, ?_⟩
  rw [depth_folded, depth_folded, ht.depth]
  rfl

end

/-! ## Limits that bound the height -/

theorem tallest_le_iff (limit : Nat) : Level.expression.tallest limit ≤ limit ↔ limit ≤ 4 := by
  match limit with
  | 0 => decide
  | 1 => decide
  | 2 => decide
  | 3 => decide
  | 4 => decide
  | n + 5 =>
    have hfactor : n + 3 ≤ tallestFactor (n + 3) := le_tallestFactor _
    have htallest : Level.expression.tallest (n + 5) = tallestFactor (n + 3) + (n + 2) + (n + 2) := rfl
    rw [htallest]
    omega

/-- The limit bounds the height of the trees that group to the left up to four
levels and not beyond. A tree keeps to it just when its folds do, and
`Level.tallest` is the least bound under every limit. -/
theorem left_depth_le_limit_iff (limit : Nat) :
    ((∀ source lenient t, parse source ⟨.left, lenient, limit⟩ = .ok t → t.count.depth ≤ limit) ↔ limit ≤ 4) ∧
    (∀ source lenient t, parse source ⟨.left, lenient, limit⟩ = .ok t →
      (t.count.depth ≤ limit ↔ foldedHeight source ≤ limit) ∧
        t.count.depth ≤ Level.expression.tallest limit) ∧
    (3 ≤ limit → ∃ source t, parse source ⟨.left, false, limit⟩ = .ok t ∧
      t.count.depth = Level.expression.tallest limit) := by
  have hbound : ∀ source lenient t, parse source ⟨.left, lenient, limit⟩ = .ok t →
      t.count.depth ≤ Level.expression.tallest limit :=
    fun source lenient t h => depth_le_tallest (o := ⟨.left, lenient, limit⟩) rfl h
  have hfolded : ∀ source lenient t, parse source ⟨.left, lenient, limit⟩ = .ok t →
      t.count.depth = foldedHeight source :=
    fun source lenient t h => depth_eq_foldedHeight (o := ⟨.left, lenient, limit⟩) rfl h
  have hreached : 3 ≤ limit → ∃ source t, parse source ⟨.left, false, limit⟩ = .ok t ∧
      t.count.depth = Level.expression.tallest limit := by
    intro hl
    obtain ⟨n, rfl⟩ := Nat.exists_eq_add_of_le' hl
    exact exists_tallest n
  refine ⟨⟨fun hevery => ?_, fun hl source lenient t h => ?_⟩, fun source lenient t h => ⟨?_, ?_⟩, hreached⟩
  · by_cases hl : 3 ≤ limit
    · obtain ⟨source, t, hparse, hdepth⟩ := hreached hl
      have := hevery source false t hparse
      rwa [hdepth, tallest_le_iff] at this
    · omega
  · exact Nat.le_trans (hbound source lenient t h) ((tallest_le_iff limit).mpr hl)
  · rw [hfolded source lenient t h]
  · exact hbound source lenient t h

theorem left_depth_exceeds_limit :
    ¬ ∀ source limit t, parse source ⟨.left, false, limit⟩ = .ok t → t.count.depth ≤ limit := by
  intro hevery
  have hdepth : (parse "1*1*1*1+1+1+1" ⟨.left, false, 6⟩).toOption.map (fun t => t.count.depth) = some 7 := by
    decide +kernel
  cases hp : parse "1*1*1*1+1+1+1" ⟨.left, false, 6⟩ with
  | error e =>
    rw [hp] at hdepth
    cases hdepth
  | ok t =>
    rw [hp] at hdepth
    have hseven : t.count.depth = 7 := Option.some.inj hdepth
    have hsix := hevery _ _ _ hp
    omega

end Calculator.Parse
