import Calculator.Proofs.Adequacy
import Calculator.Proofs.Scan

/-!
# The parser against the scan

Every run by the rules is a stretch of `scanWithin`: a production starts where
an operand belongs and ends where an operator does, in the group it started in,
and a run that fails reports what the scan reports. The groups are tied to the
parser by `Fits`, which accounts for each open level. The grouping of chains
plays no part in the scan.
-/

namespace Calculator.Parse

/-! ## Groups and levels -/

/-- The levels that a production of this level opens down to a number. -/
def Level.height : Level → Nat
  | expression => 3
  | term => 2
  | factor => 1

/-- What a group counts before an operand of level `l`. -/
def Group.before (g : Group) : Level → Group
  | .expression => ⟨g.additive, 0, 0⟩
  | .term => ⟨g.additive, g.multiplicative, 0⟩
  | .factor => g

/-- A phrase of level `l` behind which `h` stands for `g`: what follows it
depends on no more of the group. -/
def Group.Agrees (g h : Group) : Level → Prop
  | .expression => True
  | .term => g.additive = h.additive
  | .factor => g.additive = h.additive ∧ g.multiplicative = h.multiplicative

/-- A production of level `l` that starts with `depth` levels open in the group `g`. -/
def Fits (l : Level) (depth : Nat) (g : Group) (outer : List Group) : Prop :=
  g.before l = g ∧ levels (g :: outer) = depth + l.height

/-- The rest of a chain of level `l`, with `depth` levels open, behind an
operand that was read in the group `g`. -/
def Resumes (l : Level) (depth : Nat) (g : Group) (outer : List Group) : Prop :=
  levels (g.before l :: outer) + 1 = depth + l.height

section
variable {l : Level} {depth : Nat} {g h : Group} {outer : List Group} {op : BinaryOp}

theorem Level.height_tighter (hl : l ≠ .factor) : l.height = l.tighter.height + 1 := by
  cases l with
  | expression => rfl
  | term => rfl
  | factor => exact absurd rfl hl

theorem Fits.tighter (hf : Fits l depth g outer) (hl : l ≠ .factor) :
    Fits l.tighter (depth + 1) g outer := by
  obtain ⟨hg, hlevels⟩ := hf
  refine ⟨?_, by rw [hlevels, Level.height_tighter hl]; omega⟩
  cases l with
  | expression => rw [← hg]; rfl
  | term => rfl
  | factor => rfl

theorem before_addOperator (hj : l.joins op = true) : (g.addOperator op).before l = g.addOperator op := by
  cases l with
  | expression =>
    have ha : op.isAdditive = true := hj
    simp [Group.addOperator, ha, Group.before]
  | term =>
    have ha : op.isAdditive = false := by cases op <;> first | rfl | cases hj
    simp [Group.addOperator, ha, Group.before]
  | factor => rfl

theorem levels_addOperator (hj : l.joins op = true) : (g.addOperator op).levels = (g.before l).levels + 1 := by
  cases l with
  | expression =>
    have ha : op.isAdditive = true := hj
    simp only [Group.addOperator, ha, ite_true, Group.before, Group.levels]
    omega
  | term =>
    have ha : op.isAdditive = false := by cases op <;> first | rfl | cases hj
    simp only [Group.addOperator, ha, Bool.false_eq_true, ite_false, Group.before, Group.levels]
    omega
  | factor => cases hj

theorem Resumes.addOperator (h : Resumes l depth g outer) (hj : l.joins op = true) :
    Fits l depth (g.addOperator op) outer := by
  refine ⟨before_addOperator hj, ?_⟩
  rw [Resumes, levels_cons] at h
  rw [levels_cons, levels_addOperator hj]
  omega

theorem Group.Agrees.refl (g : Group) (l : Level) : g.Agrees g l := by
  cases l with
  | expression => trivial
  | term => rfl
  | factor => exact ⟨rfl, rfl⟩

theorem Group.Agrees.addOperator (ha : g.Agrees h l) (hj : l.joins op = true) :
    (g.addOperator op).Agrees h l := by
  cases l with
  | expression => trivial
  | term =>
    have hm : op.isAdditive = false := by cases op <;> first | rfl | cases hj
    simpa [Group.addOperator, hm, Group.Agrees] using ha
  | factor => cases hj

theorem addOperator_congr (ha : g.Agrees h l) (hc : l.covers op = false) :
    g.addOperator op = h.addOperator op := by
  cases l with
  | expression => cases hc
  | term =>
    have hm : op.isAdditive = true := by cases op <;> first | rfl | cases hc
    have hadd : g.additive = h.additive := ha
    simp [Group.addOperator, hm, hadd]
  | factor => simp [Group.addOperator, ha.1, ha.2]

end

section
variable {limit : Nat} {lenient : Bool} {l : Level} {g h : Group} {outer : List Group} {x : Lexeme}
  {xs : List Lexeme}

/-- Behind a phrase of level `l` the scan goes on alike in groups that agree on it. -/
theorem scanWithin_congr (hs : l.Stops x.token) (ha : g.Agrees h l) :
    scanWithin limit lenient .operator g outer (x :: xs) =
      scanWithin limit lenient .operator h outer (x :: xs) := by
  cases hx : x.token.binaryOp? with
  | some op => rw [scanWithin_operator hx, scanWithin_operator hx, addOperator_congr ha (hs op hx)]
  | none =>
    -- no group is asked for but those around it
    by_cases hlegal : ∀ character, x.token ≠ .illegal character
    · cases outer with
      | nil =>
        by_cases hend : lenient = true ∨ x.token = .endOfInput
        · rw [scanWithin_finish hlegal hx hend, scanWithin_finish hlegal hx hend]
        · rw [not_or, Bool.not_eq_true] at hend
          obtain ⟨rfl, hend⟩ := hend
          rw [scanWithin_trailing hlegal hx hend, scanWithin_trailing hlegal hx hend]
      | cons k outer =>
        by_cases hclose : x.token = .closeParen
        · rw [scanWithin_closeParen hclose, scanWithin_closeParen hclose]
        · rw [scanWithin_unclosed hlegal hx hclose, scanWithin_unclosed hlegal hx hclose]
    · obtain ⟨character, hcharacter⟩ := Classical.not_forall_not.mp hlegal
      rw [scanWithin_illegal hcharacter, scanWithin_illegal hcharacter]

end

/-! ## Runs that return -/

def Goal.Tracks (limit : Nat) (lenient : Bool) (c d : Cursor) : Goal → Prop
  | production l => ∀ g outer, Fits l c.depth g outer → ∀ h, g.Agrees h l →
      scanWithin limit lenient .operand g outer c.ahead = scanWithin limit lenient .operator h outer d.ahead
  | chain l _ => ∀ g outer, Resumes l c.depth g outer → ∀ h, g.Agrees h l →
      scanWithin limit lenient .operator g outer c.ahead = scanWithin limit lenient .operator h outer d.ahead

section
variable {o : Options} {l : Level} {c d e : Cursor} {g : Group} {outer : List Group} {op : BinaryOp}

theorem levels_le_of_factor (hm : c.depth < o.maxDepth) (hf : Fits .factor c.depth g outer) :
    levels (g :: outer) ≤ o.maxDepth := by
  have := hf.2
  simp only [Level.height] at this
  omega

theorem Fits.resumes {m : Level} (hf : Fits l c.depth g outer) (hs : Stands m c.enter d) :
    Resumes l d.depth g outer := by
  rw [Resumes, hf.1, hf.2, hs.depth, Cursor.depth_enter]
  omega

theorem Resumes.link (h : Resumes l c.depth g outer) (hj : l.joins op = true) (hp : c.Pulls d) :
    Fits l d.depth (g.addOperator op) outer := by
  rw [hp.depth]
  exact h.addOperator hj

theorem Fits.fresh (hf : Fits .factor c.depth g outer) (hp : c.enter.Pulls d) :
    Fits .expression d.depth .fresh (g :: outer) := by
  refine ⟨rfl, ?_⟩
  rw [levels_cons, hf.2, hp.depth, Cursor.depth_enter]
  simp only [Group.levels, Group.fresh, Level.height]
  omega

theorem Fits.addSign (hf : Fits .factor c.depth g outer) (hp : c.enter.Pulls d) :
    Fits .factor d.depth g.addSign outer := by
  refine ⟨rfl, ?_⟩
  have hlevels := hf.2
  rw [levels_cons] at hlevels ⊢
  rw [hp.depth, Cursor.depth_enter]
  simp only [Group.levels, Group.addSign] at hlevels ⊢
  omega

theorem magnitude_le (hc : Ready c.ahead) {v : Binary64} (hx : c.current.token = .number v)
    (hv : v.isExactInteger = true) : c.current.magnitude ≤ Binary64.maxExactInteger :=
  (hc.1.faithful v hx).mp hv

theorem Parses.tracks {goal : Goal} {t : Expr} (lenient : Bool) (h : Parses o goal c t d) (hc : Ready c.ahead) :
    goal.Tracks o.maxDepth lenient c d := by
  induction h with
  | @operand l c d e a t hl _ ha _ iha iht =>
    intro g outer hf h hag
    have hd := ha.stands (c := c.enter) hc
    have hstart := iha hc g outer (hf.tighter hl) g (.refl g _)
    have hrest := iht hd.ready g outer (hf.resumes hd) h hag
    exact hstart.trans hrest
  | stop hs => exact fun g outer _ h hag => scanWithin_congr hs hag
  | @right l op c d e a b _ hx hj hp _ ih =>
    intro g outer hd h hag
    have hr := hp.ready (hc.unread (ne_endOfInput_of_binaryOp hx))
    rw [hp.ahead_eq, scanWithin_operator hx]
    exact ih hr _ outer (hd.link hj hp) h (hag.addOperator hj)
  | @left l op c d e f a b t _ hx hj hp _ hb _ ihb iht =>
    intro g outer hd h hag
    have hr := hp.ready (hc.unread (ne_endOfInput_of_binaryOp hx))
    have he := hb.stands (c := d.enter) hr
    -- the level of this link is still open behind its operand, as the scan counts it
    have hfit := hd.link hj hp
    rw [hp.ahead_eq, scanWithin_operator hx]
    have hoperand := ihb hr _ outer (hfit.tighter (Level.ne_factor_of_joins hj)) _ (.refl _ _)
    have hrest := iht he.ready _ outer (hfit.resumes he) h (hag.addOperator hj)
    exact hoperand.trans hrest
  | @number c d v hm hx hv hp =>
    intro g outer hf h hag
    rw [hp.ahead_of_enter, scanWithin_number (levels_le_of_factor hm hf) hx (magnitude_le hc hx hv)]
    exact scanWithin_congr (Level.stops_factor _) hag
  | @group c d e f t hm hx hp ht hy hq ih =>
    intro g outer hf h hag
    have hr : Ready d.ahead := hp.ready_of_enter hc (by rw [hx]; decide)
    have hr' := (ht.stands hr).ready
    have hinner := ih hr .fresh (g :: outer) (hf.fresh hp) .fresh (.refl _ _)
    rw [hp.ahead_of_enter, scanWithin_openParen (levels_le_of_factor hm hf) hx, hinner,
      hq.ahead_eq, scanWithin_closeParen hy]
    have hnext : Ready f.ahead := hq.ready (hr'.unread (by rw [hy]; decide))
    exact scanWithin_congr (Level.stops_factor _) hag
  | @sign c d e s t hm hx hp ht ih =>
    intro g outer hf h hag
    have hr : Ready d.ahead := hp.ready_of_enter hc (ne_endOfInput_of_sign hx)
    rw [hp.ahead_of_enter, scanWithin_sign (levels_le_of_factor hm hf) hx]
    exact ih hr g.addSign outer (hf.addSign hp) h hag

end

/-! ## Runs that fail -/

def Goal.Reports (limit : Nat) (lenient : Bool) (c : Cursor) (e : Error) : Goal → Prop
  | production l => ∀ g outer, Fits l c.depth g outer →
      scanWithin limit lenient .operand g outer c.ahead = .error e
  | chain l _ => ∀ g outer, Resumes l c.depth g outer →
      scanWithin limit lenient .operator g outer c.ahead = .error e

section
variable {limit : Nat} {lenient : Bool} {o : Options} {l : Level} {c d : Cursor} {g : Group}
  {outer : List Group} {e : Error} {op : BinaryOp}

theorem scanWithin_refused (h : c.Refuses e d) (phase : Phase) :
    scanWithin limit lenient phase g outer c.unread = .error e := by
  cases h with
  | intro hu hx => rw [hu, scanWithin_illegal hx]

theorem scanWithin_full (hc : Ready c.ahead) (hm : o.maxDepth ≤ c.depth) (hf : Fits l c.depth g outer) :
    scanWithin o.maxDepth lenient .operand g outer c.ahead =
      .error ⟨c.current.start, .nestingTooDeep o.maxDepth⟩ := by
  refine scanWithin_tooDeep (hc.2 c.current rfl) ?_
  rw [hf.2]
  cases l <;> simp only [Level.height] <;> omega

theorem Fails.reports {goal : Goal} (lenient : Bool) (h : Fails o goal c e d) (hc : Ready c.ahead) :
    goal.Reports o.maxDepth lenient c e := by
  induction h with
  | tooDeep hm => exact fun g outer hf => scanWithin_full hc hm hf
  | operand hl _ _ ih => exact fun g outer hf => ih hc g outer (hf.tighter hl)
  | @chain l c d f a e hl _ ha _ ih =>
    intro g outer hf
    have hd := ha.stands (c := c.enter) hc
    have hstart := ha.tracks (c := c.enter) lenient hc g outer (hf.tighter hl) g (.refl g _)
    have hrest := ih hd.ready g outer (hf.resumes hd)
    exact hstart.trans hrest
  | @illegalOperand l op c d a e hx _ hr =>
    intro g outer _
    show scanWithin _ _ _ _ _ (c.current :: c.unread) = _
    rw [scanWithin_operator hx, scanWithin_refused hr]
  | @right l op c d f a e _ hx hj hp _ ih =>
    intro g outer hd
    have hr := hp.ready (hc.unread (ne_endOfInput_of_binaryOp hx))
    rw [hp.ahead_eq, scanWithin_operator hx]
    exact ih hr _ outer (hd.link hj hp)
  | @tooManyLinks l op c d a _ hx hj hp hm =>
    intro g outer hd
    have hr := hp.ready (hc.unread (ne_endOfInput_of_binaryOp hx))
    rw [hp.ahead_eq, scanWithin_operator hx]
    exact scanWithin_full hr hm (hd.link hj hp)
  | @leftOperand l op c d f a e _ hx hj hp _ _ ih =>
    intro g outer hd
    have hr := hp.ready (hc.unread (ne_endOfInput_of_binaryOp hx))
    rw [hp.ahead_eq, scanWithin_operator hx]
    exact ih hr _ outer ((hd.link hj hp).tighter (Level.ne_factor_of_joins hj))
  | @left l op c d f k a b e _ hx hj hp _ hb _ ih =>
    intro g outer hd
    have hr := hp.ready (hc.unread (ne_endOfInput_of_binaryOp hx))
    have hf := hb.stands (c := d.enter) hr
    have hfit := hd.link hj hp
    have hoperand := hb.tracks (c := d.enter) lenient hr _ outer
      (hfit.tighter (Level.ne_factor_of_joins hj)) _ (.refl _ _)
    have hrest := ih hf.ready _ outer (hfit.resumes hf)
    rw [hp.ahead_eq, scanWithin_operator hx]
    exact hoperand.trans hrest
  | @literalTooLarge c v hm hx hv =>
    intro g outer hf
    have hlarge : ¬ c.current.magnitude ≤ Binary64.maxExactInteger := by
      rw [← hc.1.faithful v hx, hv]
      exact Bool.false_ne_true
    exact scanWithin_literalTooLarge (levels_le_of_factor hm hf) hx hlarge
  | @illegalNext c d e hm hx hr =>
    intro g outer hf
    have hl := levels_le_of_factor hm hf
    have hnext : ∀ phase g outer, scanWithin o.maxDepth lenient phase g outer c.unread = .error e :=
      fun phase g outer => scanWithin_refused (c := c.enter) hr phase
    show scanWithin _ _ _ _ _ (c.current :: c.unread) = _
    rcases hx with ⟨v, hx, hv⟩ | hx | ⟨s, hx⟩
    · rw [scanWithin_number hl hx (magnitude_le hc hx hv), hnext]
    · rw [scanWithin_openParen hl hx, hnext]
    · rw [scanWithin_sign hl hx, hnext]
  | @inner c d f e hm hx hp _ ih =>
    intro g outer hf
    have hr : Ready d.ahead := hp.ready_of_enter hc (by rw [hx]; decide)
    rw [hp.ahead_of_enter, scanWithin_openParen (levels_le_of_factor hm hf) hx]
    exact ih hr .fresh (g :: outer) (hf.fresh hp)
  | @unclosed c d f t hm hx hp ht hy =>
    intro g outer hf
    have hr : Ready d.ahead := hp.ready_of_enter hc (by rw [hx]; decide)
    have hs := ht.stands hr
    have hop : f.current.token.binaryOp? = none := hs.stops.binaryOp?_eq_none
    have hinner := ht.tracks lenient hr .fresh (g :: outer) (hf.fresh hp) .fresh (.refl _ _)
    rw [hp.ahead_of_enter, scanWithin_openParen (levels_le_of_factor hm hf) hx, hinner]
    exact scanWithin_unclosed (hs.ready.2 f.current rfl) hop hy
  | @illegalAfter c d f k t e hm hx hp ht hy hq =>
    intro g outer hf
    have hr : Ready d.ahead := hp.ready_of_enter hc (by rw [hx]; decide)
    have hinner := ht.tracks lenient hr .fresh (g :: outer) (hf.fresh hp) .fresh (.refl _ _)
    rw [hp.ahead_of_enter, scanWithin_openParen (levels_le_of_factor hm hf) hx, hinner]
    show scanWithin _ _ _ _ _ (f.current :: f.unread) = _
    rw [scanWithin_closeParen hy, scanWithin_refused hq]
  | @sign c d f s e hm hx hp _ ih =>
    intro g outer hf
    have hr : Ready d.ahead := hp.ready_of_enter hc (ne_endOfInput_of_sign hx)
    rw [hp.ahead_of_enter, scanWithin_sign (levels_le_of_factor hm hf) hx]
    exact ih hr g.addSign outer (hf.addSign hp)
  | @endOfInput c hm hx =>
    exact fun g outer hf => scanWithin_endOfInput (levels_le_of_factor hm hf) hx
  | @unexpected c x hm hx hy =>
    exact fun g outer hf => scanWithin_unexpected (levels_le_of_factor hm hf) hx hy

end

end Calculator.Parse
