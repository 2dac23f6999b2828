import Calculator.Parse.Counted
import Calculator.Proofs.Adequacy

/-!
# The depth counter

The parser on a counter of 64 bits never leaves the word while the limit is one.
Without its record it is the parser itself, and by its record no value of the
depth exceeds the limit, and every call returns at the depth of its entry.
-/

namespace Calculator.Parse

/-! ## What a record says -/

/-- Within the limit; and a call has given back what it claimed. -/
def Event.Sound (limit : Nat) : Event → Prop
  | moved depth => depth ≤ limit
  | returned _ entry exit => exit = entry ∧ entry ≤ limit

/-- From `c` the counted run ends without a fault, with `r` at `d`, and what it adds to the record is
sound. -/
def Yields {α : Type} (limit : Nat) (p : Counted α) (c : Cursor) (r : Except Error α) (d : Cursor) : Prop :=
  ∀ events, ∃ added, p ⟨c, events⟩ = .ok (r, ⟨d, added ++ events⟩) ∧ ∀ x ∈ added, x.Sound limit

/-- The parser ends with a result or an error of which `post` holds. -/
def Ends {α : Type} (p : Parser α) (c : Cursor) (post : Except Error α → Cursor → Prop) : Prop :=
  Ensures p c (fun a => post (.ok a)) fun e => post (.error e)

/-- The parser leaves the depth alone. -/
def Steady {α : Type} (p : Parser α) : Prop := ∀ c, Ends p c fun _ d => d.depth = c.depth

/-- The counted parser ends as the parser does, from any cursor within the limit, and at the depth it
started from. -/
def Counts {α : Type} (o : Options) (counted : Counted α) (p : Parser α) : Prop :=
  ∀ c, c.depth ≤ o.maxDepth → Ends p c fun r d => Yields o.maxDepth counted c r d ∧ d.depth = c.depth

section
variable {α β : Type} {o : Options} {limit : Nat} {c d m : Cursor}

/-! ## Runs on the counter -/

section
variable {p : Counted α} {f : α → Counted β} {a : α} {e : Error} {r : Except Error α} {r' : Except Error β}

theorem Counted.bind_ok {g h : Gauge} (hp : p g = .ok (.ok a, h)) : (p >>= f) g = f a h := by
  simp only [bind, ExceptT.bind, ExceptT.mk, ExceptT.bindCont, StateT.bind]
  rw [hp]
  rfl

theorem Counted.bind_error {g h : Gauge} (hp : p g = .ok (.error e, h)) : (p >>= f) g = .ok (.error e, h) := by
  simp only [bind, ExceptT.bind, ExceptT.mk, ExceptT.bindCont, StateT.bind]
  rw [hp]
  rfl

theorem Yields.bind (hp : Yields limit p c (.ok a) m) (hf : Yields limit (f a) m r' d) :
    Yields limit (p >>= f) c r' d := by
  intro events
  obtain ⟨first, hfirst, hsound⟩ := hp events
  obtain ⟨second, hsecond, hsound'⟩ := hf (first ++ events)
  refine ⟨second ++ first, ?_, List.forall_mem_append.mpr ⟨hsound', hsound⟩⟩
  rw [Counted.bind_ok hfirst, hsecond, List.append_assoc]

theorem Yields.bind_error (hp : Yields limit p c (.error e) d) : Yields limit (p >>= f) c (.error e) d := by
  intro events
  obtain ⟨added, hadded, hsound⟩ := hp events
  exact ⟨added, Counted.bind_error hadded, hsound⟩

theorem Yields.attempt (hp : Yields limit p c r d) : Yields limit (Counted.attempt p) c (.ok r) d := by
  intro events
  obtain ⟨added, hadded, hsound⟩ := hp events
  refine ⟨added, ?_, hsound⟩
  simp only [Counted.attempt, ExceptT.lift, ExceptT.run, ExceptT.mk, Functor.map, StateT.map]
  rw [hadded]
  rfl

theorem yields_pure (a : α) : Yields limit (pure a) c (.ok a) c := fun _ => ⟨[], rfl, List.forall_mem_nil _⟩

theorem yields_settle (r : Except Error α) : Yields limit (Counted.settle r) c r c :=
  fun _ => ⟨[], rfl, List.forall_mem_nil _⟩

theorem yields_here : Yields limit Counted.here c (.ok c) c := fun _ => ⟨[], rfl, List.forall_mem_nil _⟩

theorem yields_note {x : Event} (h : x.Sound limit) : Yields limit (Counted.note x) c (.ok ()) c :=
  fun _ => ⟨[x], rfl, List.forall_mem_singleton.mpr h⟩

theorem yields_setDepth {depth : Nat} (h : depth ≤ limit) :
    Yields limit (Counted.setDepth depth) c (.ok ()) { c with depth := depth } :=
  fun _ => ⟨[.moved depth], rfl, List.forall_mem_singleton.mpr h⟩

theorem yields_tooDeep (h : o.maxDepth ≤ c.depth) :
    Yields limit (Counted.enter o) c (.error ⟨c.current.start, .nestingTooDeep o.maxDepth⟩) c := by
  refine yields_here.bind ?_
  simp only [if_pos h]
  exact fun _ => ⟨[], rfl, List.forall_mem_nil _⟩

theorem yields_enter (hword : o.maxDepth < Counted.wordLimit) (h : c.depth < o.maxDepth) :
    Yields o.maxDepth (Counted.enter o) c (.ok ()) c.enter := by
  have hnext : c.depth + 1 < Counted.wordLimit := Nat.lt_of_le_of_lt h hword
  refine yields_here.bind ?_
  simp only [if_neg (Nat.not_le_of_lt h), if_pos hnext]
  exact yields_setDepth h

theorem yields_leave (levels : Nat) (h : levels ≤ c.depth) (hlimit : c.depth - levels ≤ limit) :
    Yields limit (Counted.leave levels) c (.ok ()) { c with depth := c.depth - levels } := by
  refine yields_here.bind ?_
  simp only [if_pos h]
  exact yields_setDepth hlimit

theorem Yields.recorded (routine : Routine) (hc : c.depth ≤ limit) (hd : d.depth = c.depth)
    (hp : Yields limit p c r d) : Yields limit (Counted.recorded routine p) c r d := by
  have hsound : (Event.returned routine c.depth d.depth).Sound limit := ⟨hd, hc⟩
  exact yields_here.bind (hp.attempt.bind (yields_here.bind ((yields_note hsound).bind (yields_settle r))))

end

/-! ## Runs of the parser -/

section
variable {q : Parser α} {k : α → Parser β} {post post' : Except Error α → Cursor → Prop}
  {goal : Except Error β → Cursor → Prop}

theorem Ends.mono (h : Ends q c post) (himp : ∀ r d, post r d → post' r d) : Ends q c post' :=
  Ensures.mono h (fun _ => himp _) (fun _ => himp _)

theorem Ends.bind (hq : Ends q c post) (hok : ∀ a d, post (.ok a) d → Ends (k a) d goal)
    (herror : ∀ e d, post (.error e) d → goal (.error e) d) : Ends (q >>= k) c goal := by
  unfold Ends
  rw [ensures_bind]
  exact Ensures.mono hq hok herror

theorem Ends.nested (hdeep : o.maxDepth ≤ c.depth → post (.error ⟨c.current.start, .nestingTooDeep o.maxDepth⟩) c)
    (hq : c.depth < o.maxDepth → Ends q c.enter fun r d => post r d.leave) : Ends (Parse.nested o q) c post := by
  unfold Ends
  rw [ensures_nested]
  by_cases h : o.maxDepth ≤ c.depth
  · rw [if_pos h]
    exact hdeep h
  · rw [if_neg h]
    exact hq (Nat.lt_of_not_le h)

/-! ## Steps that leave the depth alone -/

theorem steady_current : Steady current := fun _ => rfl

theorem steady_fail (cause : Cause) : Steady (fail cause : Parser α) := fun _ => rfl

theorem Steady.bind (hq : Steady q) (hk : ∀ a, Steady (k a)) : Steady (q >>= k) := by
  intro c
  refine (hq c).bind (fun a d hd => ?_) fun _ _ => id
  rw [← hd]
  exact hk a d

theorem steady_advance : Steady advance := by
  intro c
  unfold Ends
  cases hu : c.unread with
  | nil => simp [Ensures, advance, hu]
  | cons x rest =>
    rw [ensures_advance_cons hu]
    cases x.token <;> rfl

theorem steady_literal (v : Binary64) : Steady (literal v) := by
  unfold literal
  split
  · exact steady_advance.bind fun _ _ => rfl
  · exact steady_current.bind fun _ => steady_fail _

theorem steady_closeParen : Steady closeParen := by
  apply steady_current.bind
  intro x
  split
  · exact steady_advance
  · exact steady_fail _

/-! ## The counted parser against the parser -/

variable {p : Counted α} {f : α → Counted β}

theorem counts_pure (a : α) : Counts o (pure a) (pure a) := fun _ _ => ⟨yields_pure a, rfl⟩

theorem Steady.counts (hq : Steady q) : Counts o (Counted.step q) q := by
  intro c _
  have hsteady := hq c
  unfold Ends Ensures at hsteady ⊢
  cases hr : q c with
  | ok a d =>
    rw [hr] at hsteady
    exact ⟨fun _ => ⟨[], by simp [Counted.step, hr], List.forall_mem_nil _⟩, hsteady⟩
  | error e d =>
    rw [hr] at hsteady
    exact ⟨fun _ => ⟨[], by simp [Counted.step, hr], List.forall_mem_nil _⟩, hsteady⟩

theorem Counts.bind (hp : Counts o p q) (hf : ∀ a, Counts o (f a) (k a)) : Counts o (p >>= f) (q >>= k) := by
  intro c hc
  refine (hp c hc).bind (fun a m ⟨ha, hm⟩ => ?_) (fun e d ⟨he, hd⟩ => ⟨he.bind_error, hd⟩)
  exact (hf a m (hm ▸ hc)).mono fun r d ⟨hr, hd⟩ => ⟨ha.bind hr, hd.trans hm⟩

theorem Counts.recorded (routine : Routine) (hp : Counts o p q) : Counts o (Counted.recorded routine p) q := by
  intro c hc
  exact (hp c hc).mono fun r d ⟨hr, hd⟩ => ⟨hr.recorded routine hc hd, hd⟩

/-- The level is released behind `p`, whatever `p` ends with. -/
theorem Counts.nested (hword : o.maxDepth < Counted.wordLimit) (hp : Counts o p q) :
    Counts o (Counted.nested o p) (Parse.nested o q) := by
  apply Counts.recorded
  intro c hc
  refine .nested (fun hdeep => ⟨(yields_tooDeep hdeep).bind_error, rfl⟩) (fun hlt => ?_)
  refine (hp c.enter hlt).mono fun r d ⟨hr, hd⟩ => ?_
  rw [Cursor.depth_enter] at hd
  have hclosed : d.depth - 1 = c.depth := by omega
  have hleave : Yields o.maxDepth (Counted.leave 1) d (.ok ()) d.leave := yields_leave 1 (by omega) (hclosed ▸ hc)
  exact ⟨(yields_enter hword hlt).bind (hr.attempt.bind (hleave.bind (yields_settle r))), hclosed⟩

end

end

/-! ## Chains -/

/-- The links of a chain end as the parser does at `d`, but with the levels open that were added to
`folds`. -/
def LeavesOpen (limit : Nat) (links : Counted (Except Error Expr × Nat)) (folds : Nat) (c : Cursor) (r : Except Error Expr)
    (d : Cursor) : Prop :=
  d.depth = c.depth ∧ ∃ more, Yields limit links c (.ok (r, folds + more)) { d with depth := d.depth + more }

/-- The counted links end as those of the parser do, but for the levels that are left open. -/
def CountsLinks (o : Options) (links : Counted (Except Error Expr × Nat)) (folds : Nat) (p : Parser Expr) : Prop :=
  ∀ c, c.depth ≤ o.maxDepth → Ends p c (LeavesOpen o.maxDepth links folds c)

section
variable {α : Type} {o : Options} {p : Counted α} {q : Parser α} {next : α → Counted (Except Error Expr × Nat)}
  {k : α → Parser Expr} {links : Counted (Except Error Expr × Nat)} {rest : Parser Expr} {limit folds : Nat}
  {c d m : Cursor}

theorem Yields.orStop {a : α} {r : Except Error (Except Error Expr × Nat)} (hp : Yields limit p c (.ok a) m)
    (hnext : Yields limit (next a) m r d) : Yields limit (Counted.orStop p folds next) c r d :=
  hp.attempt.bind hnext

theorem Yields.orStop_error {e : Error} (hp : Yields limit p c (.error e) d) :
    Yields limit (Counted.orStop p folds next) c (.ok (.error e, folds)) d :=
  hp.attempt.bind (yields_pure _)

theorem CountsLinks.ahead {next : Lexeme → Counted (Except Error Expr × Nat)} {k : Lexeme → Parser Expr}
    (hnext : ∀ x, CountsLinks o (next x) folds (k x)) :
    CountsLinks o (Counted.step current >>= next) folds (current >>= k) := by
  intro c hc
  have hcurrent : Yields o.maxDepth (Counted.step current) c (.ok c.current) c :=
    fun _ => ⟨[], rfl, List.forall_mem_nil _⟩
  exact Ends.mono (hnext c.current c hc) fun r d ⟨hd, more, hr⟩ => ⟨hd, more, hcurrent.bind hr⟩

theorem Counts.orStop (hp : Counts o p q) (hnext : ∀ a, CountsLinks o (next a) folds (k a)) :
    CountsLinks o (Counted.orStop p folds next) folds (q >>= k) := by
  intro c hc
  refine (hp c hc).bind (fun a m ⟨ha, hm⟩ => ?_) (fun e d ⟨he, hd⟩ => ⟨hd, 0, he.orStop_error⟩)
  exact (hnext a m (hm ▸ hc)).mono fun r d ⟨hd, more, hr⟩ => ⟨hd.trans hm, more, ha.orStop hr⟩

/-- The level that a link claims stays open behind it, where the parser closes it. -/
theorem CountsLinks.claimed (hword : o.maxDepth < Counted.wordLimit) (hlinks : CountsLinks o links (folds + 1) rest) :
    CountsLinks o (Counted.orStop (Counted.enter o) folds fun _ => links) folds (Parse.nested o rest) := by
  intro c hc
  refine .nested (fun hdeep => ⟨rfl, 0, (yields_tooDeep hdeep).orStop_error⟩) (fun hlt => ?_)
  refine (hlinks c.enter hlt).mono fun r d ⟨hd, more, hr⟩ => ?_
  rw [Cursor.depth_enter] at hd
  have hclosed : d.depth - 1 = c.depth := by omega
  have hdepth : d.depth + more = d.depth - 1 + (more + 1) := by omega
  rw [hdepth, Nat.add_right_comm folds 1 more] at hr
  exact ⟨hclosed, more + 1, (yields_enter hword hlt).orStop hr⟩

end

section
variable {o : Options} {accepts : BinaryOp → Bool} {operand sameLevel : Counted Expr}
  {operand' sameLevel' : Parser Expr}

theorem countsLinks_stop (left : Expr) (folds : Nat) : CountsLinks o (pure (.ok left, folds)) folds (pure left) :=
  fun _ _ => ⟨rfl, 0, yields_pure _⟩

theorem countsLinks_foldChain (hword : o.maxDepth < Counted.wordLimit) (hoperand : Counts o operand operand')
    (hsame : Counts o sameLevel sameLevel') (bound : Nat) : ∀ left folds,
    CountsLinks o (Counted.foldChain o accepts operand sameLevel bound left folds) folds
      (chainUpTo o accepts operand' sameLevel' bound left) := by
  induction bound with
  | zero => exact countsLinks_stop
  | succ bound ih =>
    intro left folds
    -- a link looks ahead before it stops or goes on
    refine CountsLinks.ahead fun x => ?_
    cases x.token.binaryOp? with
    | none => exact countsLinks_stop left folds
    | some op =>
      dsimp only
      by_cases hop : accepts op = true
      · rw [if_pos hop, if_pos hop]
        refine steady_advance.counts.orStop fun _ => ?_
        cases o.grouping with
        | right => exact hsame.orStop fun right => ih (.binary op left right) folds
        | left => exact .claimed hword (hoperand.orStop fun right => ih (.binary op left right) (folds + 1))
      · rw [if_neg hop, if_neg hop]
        exact countsLinks_stop left folds

/-- All levels that the links have left open are released at once. -/
theorem counts_chain (hword : o.maxDepth < Counted.wordLimit) (hoperand : Counts o operand operand')
    (hsame : Counts o sameLevel sameLevel') (left : Expr) :
    Counts o (Counted.chain o accepts operand sameLevel left) (chain o accepts operand' sameLevel' left) := by
  apply Counts.recorded
  intro c hc
  have hlinks : CountsLinks o (Counted.foldChain o accepts operand sameLevel c.unread.length left 0) 0
      (chainUpTo o accepts operand' sameLevel' c.unread.length left) :=
    countsLinks_foldChain hword hoperand hsame c.unread.length left 0
  refine Ends.mono (hlinks c hc) fun r d ⟨hd, more, hr⟩ => ?_
  have hclosed : d.depth + more - (0 + more) = d.depth := by omega
  have hleave : Yields o.maxDepth (Counted.leave (0 + more)) { d with depth := d.depth + more } (.ok ())
      { d with depth := d.depth + more - (0 + more) } :=
    yields_leave (0 + more) (by simp) (by simp [hd, hc])
  rw [hclosed] at hleave
  exact ⟨yields_here.bind (hr.bind (hleave.bind (yields_settle r))), hd⟩

theorem counts_chained (routine : Routine) (hword : o.maxDepth < Counted.wordLimit)
    (hoperand : Counts o operand operand') (hsame : Counts o sameLevel sameLevel') :
    Counts o (Counted.recorded routine <| Counted.nested o (operand >>= Counted.chain o accepts operand sameLevel))
      (nested o (operand' >>= chain o accepts operand' sameLevel')) := by
  have hchain : Counts o (operand >>= Counted.chain o accepts operand sameLevel)
      (operand' >>= chain o accepts operand' sameLevel') :=
    hoperand.bind (counts_chain hword hoperand hsame)
  exact (hchain.nested hword).recorded routine

end

/-! ## Productions -/

def Counted.production (o : Options) : Level → (levels : Nat) → Counted Expr
  | .expression => Counted.expression o
  | .term => Counted.term o
  | .factor => Counted.factor o

section
variable {o : Options} {levels : Nat}

theorem nested_tooDeep (o : Options) : (nested o (tooDeep o) : Parser Expr) = tooDeep o := by
  funext c
  unfold nested
  split
  · rfl
  · rfl

theorem counts_tooDeep (hword : o.maxDepth < Counted.wordLimit) (routine : Routine) :
    Counts o (Counted.recorded routine (Counted.nested o (Counted.step (tooDeep o)))) (tooDeep o : Parser Expr) := by
  have hstep : Counts o (Counted.step (tooDeep o)) (tooDeep o : Parser Expr) := (steady_fail _).counts
  have hnested := (hstep.nested hword).recorded routine
  rwa [nested_tooDeep] at hnested

theorem counts_factor (hword : o.maxDepth < Counted.wordLimit)
    (hexpression : Counts o (Counted.expression o levels) (expression o levels))
    (hfactor : Counts o (Counted.factor o levels) (factor o levels)) :
    Counts o (Counted.factor o (levels + 1)) (factor o (levels + 1)) := by
  have hadvance := steady_advance.counts (o := o)
  refine (Counts.nested hword (steady_current.counts.bind fun x => ?_)).recorded .factor
  cases x.token with
  | number v => exact (steady_literal v).counts
  | openParen =>
    exact hadvance.bind fun _ => hexpression.bind fun inner =>
      steady_closeParen.counts.bind fun _ => counts_pure inner
  | plus => exact hadvance.bind fun _ => hfactor.bind fun t => counts_pure _
  | minus => exact hadvance.bind fun _ => hfactor.bind fun t => counts_pure _
  | _ => exact (steady_fail _).counts

theorem counts_production (hword : o.maxDepth < Counted.wordLimit) (levels : Nat) (l : Level) :
    Counts o (Counted.production o l levels) (production o l levels) := by
  induction levels generalizing l with
  | zero =>
    cases l with
    | expression => exact counts_tooDeep hword .expression
    | term => exact counts_tooDeep hword .term
    | factor => exact counts_tooDeep hword .factor
  | succ levels ih =>
    cases l with
    | expression => exact counts_chained .expression hword (ih .term) (ih .expression)
    | term => exact counts_chained .term hword (ih .factor) (ih .term)
    | factor => exact counts_factor hword (ih .expression) (ih .factor)

theorem counts_document (hword : o.maxDepth < Counted.wordLimit) : Counts o (Counted.document o) (document o) := by
  have htree : Counts o (Counted.expression o o.maxDepth) (expression o o.maxDepth) :=
    counts_production hword o.maxDepth .expression
  unfold Counted.document document
  apply steady_advance.counts.bind
  intro _
  apply htree.bind
  intro t
  apply steady_current.counts.bind
  intro x
  dsimp only
  split
  · exact counts_pure t
  · exact (steady_fail _).counts

end

/-! ## Whole sources -/

/-- Forgets the record. -/
def Counted.erase : Except Error Expr × Gauge → EStateM.Result Error Cursor Expr
  | (.ok t, g) => .ok t g.cursor
  | (.error e, g) => .error e g.cursor

/-- Called at `g`, the counted parser returns without a fault, as the parser does, at the depth of its
entry. -/
def Returns (counted : Counted Expr) (p : Parser Expr) (g : Gauge) : Prop :=
  ∃ r h, counted g = .ok (r, h) ∧ Counted.erase (r, h) = p g.cursor ∧ h.cursor.depth = g.cursor.depth

theorem Ends.exists_erase {p : Parser Expr} {c : Cursor} {post : Except Error Expr → Cursor → Prop}
    (h : Ends p c post) : ∃ r d, (∀ events, Counted.erase (r, ⟨d, events⟩) = p c) ∧ post r d := by
  unfold Ends Ensures at h
  cases hr : p c with
  | ok t d =>
    rw [hr] at h
    exact ⟨.ok t, d, fun _ => rfl, h⟩
  | error e d =>
    rw [hr] at h
    exact ⟨.error e, d, fun _ => rfl, h⟩

theorem Counts.returns {o : Options} {counted : Counted Expr} {p : Parser Expr} {g : Gauge} (hp : Counts o counted p)
    (hg : g.cursor.depth ≤ o.maxDepth) : Returns counted p g := by
  obtain ⟨r, d, herase, hyields, hd⟩ := (hp g.cursor hg).exists_erase
  obtain ⟨added, hrun, -⟩ := hyields g.events
  exact ⟨r, ⟨d, added ++ g.events⟩, hrun, herase _, hd⟩

/-- The counter never leaves its word, the depth never exceeds the limit, and every call returns at
the depth of its entry, with a tree or with an error. The latter holds of productions and chains
wherever they are called within the limit. -/
theorem depth_balanced (source : String) (o : Options) (hword : o.maxDepth < 2 ^ 64) :
    (∃ r g, Counted.run source o = .ok (r, g) ∧ Counted.erase (r, g) = run source o ∧ g.cursor.depth = 0 ∧
      ∀ x ∈ g.events, x.Sound o.maxDepth) ∧
    ∀ g : Gauge, g.cursor.depth ≤ o.maxDepth →
      (∀ l levels, Returns (Counted.production o l levels) (production o l levels) g) ∧
      ∀ accepts l l' levels left, Returns
        (Counted.chain o accepts (Counted.production o l levels) (Counted.production o l' levels) left)
        (chain o accepts (production o l levels) (production o l' levels) left) g := by
  have hproduction := counts_production (o := o) hword
  refine ⟨?_, fun g hg => ⟨fun l levels => (hproduction levels l).returns hg, fun accepts l l' levels left => ?_⟩⟩
  · have hdocument := counts_document hword (Cursor.ofLexemes (lexemes source)) (Nat.zero_le _)
    obtain ⟨r, d, herase, hyields, hd⟩ := hdocument.exists_erase
    obtain ⟨events, hrun, hevents⟩ := hyields []
    rw [List.append_nil] at hrun
    exact ⟨r, ⟨d, events⟩, hrun, herase events, hd, hevents⟩
  · exact (counts_chain hword (hproduction levels l) (hproduction levels l') left).returns hg

/-- Two links and a group are open where the input stops, which takes the depth to its limit. -/
theorem depth_balanced_unclosed :
    ∃ g, Counted.run "1-2*(3" ⟨.left, false, 8⟩ = .ok (.error ⟨6, .expectedClosingParen⟩, g) ∧ g.cursor.depth = 0 ∧
      Event.moved 8 ∈ g.events ∧ ∀ x ∈ g.events, x.Sound 8 := by
  obtain ⟨⟨r, g, hcounted, -, hdepth, hevents⟩, -⟩ := depth_balanced "1-2*(3" ⟨.left, false, 8⟩ (by decide)
  have hrun : (match Counted.run "1-2*(3" ⟨.left, false, 8⟩ with
      | .ok (.error e, g) => some (e, g.events.contains (.moved 8))
      | _ => none) = some (⟨6, .expectedClosingParen⟩, true) := by decide +kernel
  rw [hcounted] at hrun
  cases r with
  | ok t => cases hrun
  | error e =>
    simp only [Option.some.injEq, Prod.mk.injEq] at hrun
    obtain ⟨rfl, hmoved⟩ := hrun
    exact ⟨g, hcounted, hdepth, List.contains_iff_mem.mp hmoved, hevents⟩

end Calculator.Parse
