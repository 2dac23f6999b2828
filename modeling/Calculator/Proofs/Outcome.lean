import Calculator.Parse.Grammar

/-!
# What a parser does from a cursor

`Ensures p c ok bad` says how `p` may end when it runs from `c`. Each step that
the productions are built from has one rule, and the rules open a production
without its monad.
-/

namespace Calculator.Parse

/-! ## The cursor's moves -/

namespace Cursor

/-- The lookahead and everything behind it. -/
def ahead (c : Cursor) : List Lexeme := c.current :: c.unread

def enter (c : Cursor) : Cursor := { c with depth := c.depth + 1 }

def leave (c : Cursor) : Cursor := { c with depth := c.depth - 1 }

def pull (c : Cursor) (x : Lexeme) (rest : List Lexeme) : Cursor :=
  { c with current := x, unread := rest, pulled := x :: c.pulled }

/-- `x` is read but does not become the lookahead. -/
def refuse (c : Cursor) (x : Lexeme) (rest : List Lexeme) : Cursor :=
  { c with unread := rest, pulled := x :: c.pulled }

@[simp] theorem current_enter (c : Cursor) : c.enter.current = c.current := rfl
@[simp] theorem unread_enter (c : Cursor) : c.enter.unread = c.unread := rfl
@[simp] theorem depth_enter (c : Cursor) : c.enter.depth = c.depth + 1 := rfl
@[simp] theorem ahead_enter (c : Cursor) : c.enter.ahead = c.ahead := rfl

@[simp] theorem current_leave (c : Cursor) : c.leave.current = c.current := rfl
@[simp] theorem unread_leave (c : Cursor) : c.leave.unread = c.unread := rfl
@[simp] theorem depth_leave (c : Cursor) : c.leave.depth = c.depth - 1 := rfl
@[simp] theorem ahead_leave (c : Cursor) : c.leave.ahead = c.ahead := rfl

@[simp] theorem current_pull (c : Cursor) (x : Lexeme) (rest : List Lexeme) :
    (c.pull x rest).current = x := rfl
@[simp] theorem unread_pull (c : Cursor) (x : Lexeme) (rest : List Lexeme) :
    (c.pull x rest).unread = rest := rfl
@[simp] theorem depth_pull (c : Cursor) (x : Lexeme) (rest : List Lexeme) :
    (c.pull x rest).depth = c.depth := rfl
@[simp] theorem ahead_pull (c : Cursor) (x : Lexeme) (rest : List Lexeme) :
    (c.pull x rest).ahead = x :: rest := rfl

end Cursor

/-! ## Outcomes -/

/-- Run from `c`, the parser returns with `ok` or fails with `bad`. -/
def Ensures {α : Type} (p : Parser α) (c : Cursor) (ok : α → Cursor → Prop)
    (bad : Error → Cursor → Prop) : Prop :=
  match p c with
  | .ok a d => ok a d
  | .error e d => bad e d

section
variable {α β : Type} {p : Parser α} {c : Cursor} {ok ok' : α → Cursor → Prop}
  {bad bad' : Error → Cursor → Prop}

theorem Ensures.mono (h : Ensures p c ok bad) (hok : ∀ a d, ok a d → ok' a d)
    (hbad : ∀ e d, bad e d → bad' e d) : Ensures p c ok' bad' := by
  unfold Ensures at h ⊢
  cases hp : p c with
  | ok a d => rw [hp] at h; exact hok a d h
  | error e d => rw [hp] at h; exact hbad e d h

theorem Ensures.of_ok {a : α} {d : Cursor} (h : Ensures p c ok bad) (hp : p c = .ok a d) : ok a d := by
  unfold Ensures at h
  rwa [hp] at h

@[simp] theorem ensures_pure (a : α) : Ensures (pure a) c ok bad ↔ ok a c := Iff.rfl

@[simp] theorem ensures_fail (cause : Cause) :
    Ensures (fail cause) c ok bad ↔ bad ⟨c.current.start, cause⟩ c := Iff.rfl

@[simp] theorem ensures_bind (f : α → Parser β) {ok : β → Cursor → Prop} :
    Ensures (p >>= f) c ok bad ↔ Ensures p c (fun a d => Ensures (f a) d ok bad) bad := by
  simp only [Ensures, bind, EStateM.bind]
  cases p c with
  | ok a d => rfl
  | error e d => rfl

@[simp] theorem ensures_current {ok : Lexeme → Cursor → Prop} :
    Ensures current c ok bad ↔ ok c.current c := Iff.rfl

theorem ensures_tooDeep (options : Options) :
    Ensures (tooDeep options) c ok bad ↔
      bad ⟨c.current.start, .nestingTooDeep options.maxDepth⟩ c := Iff.rfl

/-- The level is closed again on both ways out. -/
theorem ensures_nested (options : Options) :
    Ensures (nested options p) c ok bad ↔
      if options.maxDepth ≤ c.depth then bad ⟨c.current.start, .nestingTooDeep options.maxDepth⟩ c
      else Ensures p c.enter (fun a d => ok a d.leave) (fun e d => bad e d.leave) := by
  by_cases h : options.maxDepth ≤ c.depth
  · simp only [Ensures, nested, h, ite_true]
    rfl
  · have hc : { c with depth := c.depth + 1 } = c.enter := rfl
    simp only [Ensures, nested, h, ite_false, hc]
    cases p c.enter with
    | ok a d => rfl
    | error e d => rfl

end

theorem ensures_advance_cons {c : Cursor} {x : Lexeme} {rest : List Lexeme}
    {ok : Unit → Cursor → Prop} {bad : Error → Cursor → Prop} (h : c.unread = x :: rest) :
    Ensures advance c ok bad ↔
      match x.token with
      | .illegal character => bad ⟨x.start, .illegalCharacter character⟩ (c.refuse x rest)
      | _ => ok () (c.pull x rest) := by
  simp only [Ensures, advance, h]
  cases x.token <;> rfl

end Calculator.Parse
