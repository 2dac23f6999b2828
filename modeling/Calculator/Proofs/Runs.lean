import Calculator.Proofs.LexemeStream
import Calculator.Proofs.Outcome
import Calculator.Proofs.ReferenceGrammar

/-!
# Runs of the productions

`Parses` and `Fails` say by rules how a production or the rest of a chain ends:
no monad, no bound on the links of a chain and no count of levels to spare.
`Parses.stands` says where a successful run leaves the parser.
-/

namespace Calculator.Parse

/-! ## Pulling a lexeme -/

/-- Lexemes to the end of input, of which a parser may look at the first. -/
def Ready (xs : List Lexeme) : Prop :=
  Lexeme.Stream xs ∧ ∀ x ∈ xs.head?, ∀ character, x.token ≠ .illegal character

theorem Ready.unread {c : Cursor} (h : Ready c.ahead) (hx : c.current.token ≠ .endOfInput) :
    Lexeme.Stream c.unread :=
  h.1.tail hx

inductive Cursor.Pulls : Cursor → Cursor → Prop
  | intro {c : Cursor} {x : Lexeme} {rest : List Lexeme} :
      c.unread = x :: rest → (∀ character, x.token ≠ .illegal character) → Pulls c (c.pull x rest)

inductive Cursor.Refuses : Cursor → Error → Cursor → Prop
  | intro {c : Cursor} {x : Lexeme} {rest : List Lexeme} {character : Char} :
      c.unread = x :: rest → x.token = .illegal character →
      Refuses c ⟨x.start, .illegalCharacter character⟩ (c.refuse x rest)

namespace Cursor
variable {c d : Cursor}

theorem Pulls.unread (h : c.Pulls d) : c.unread = d.ahead := by
  cases h with
  | intro hu _ => exact hu

theorem Pulls.ahead_eq (h : c.Pulls d) : c.ahead = c.current :: d.ahead := by
  rw [← h.unread]
  rfl

theorem Pulls.ahead_of_enter (h : c.enter.Pulls d) : c.ahead = c.current :: d.ahead := h.ahead_eq

theorem Pulls.depth (h : c.Pulls d) : d.depth = c.depth := by
  cases h with
  | intro _ _ => rfl

theorem Pulls.ready (h : c.Pulls d) (hc : Lexeme.Stream c.unread) : Ready d.ahead := by
  rw [h.unread] at hc
  refine ⟨hc, fun x hx => ?_⟩
  cases hx
  cases h with
  | intro _ hx => exact hx

theorem Pulls.ready_of_enter (h : c.enter.Pulls d) (hc : Ready c.ahead)
    (hx : c.current.token ≠ .endOfInput) : Ready d.ahead := h.ready (hc.unread hx)

end Cursor

theorem ensures_advance {c : Cursor} (hc : Lexeme.Stream c.unread) :
    Ensures advance c (fun _ => c.Pulls) c.Refuses := by
  obtain ⟨x, rest, h⟩ := hc.exists_cons
  rw [ensures_advance_cons h]
  split
  · next character hx => exact .intro h hx
  · next hx => exact .intro h fun character => hx character

/-! ## The rules -/

/-- What is run: a production, or the rest of a chain of a level behind its
first operands. -/
inductive Goal where
  | production (l : Level)
  | chain (l : Level) (left : Expr)

def Goal.level : Goal → Level
  | production l => l
  | chain l _ => l

/-- A lexeme that a factor takes before it reads on. -/
def Opens (x : Lexeme) : Prop :=
  (∃ v, x.token = .number v ∧ v.isExactInteger = true) ∨ x.token = .openParen ∨ ∃ s, x.token.sign? = some s

inductive Parses (o : Options) : Goal → Cursor → Expr → Cursor → Prop
  | operand {l : Level} {c d e : Cursor} {a t : Expr} :
      l ≠ .factor → c.depth < o.maxDepth → Parses o (.production l.tighter) c.enter a d →
      Parses o (.chain l a) d t e → Parses o (.production l) c t e.leave
  | stop {l : Level} {c : Cursor} {a : Expr} :
      l.Stops c.current.token → Parses o (.chain l a) c a c
  | right {l : Level} {op : BinaryOp} {c d e : Cursor} {a b : Expr} :
      o.grouping = .right → c.current.token.binaryOp? = some op → l.joins op = true → c.Pulls d →
      Parses o (.production l) d b e → Parses o (.chain l a) c (.binary op a b) e
  | left {l : Level} {op : BinaryOp} {c d e f : Cursor} {a b t : Expr} :
      o.grouping = .left → c.current.token.binaryOp? = some op → l.joins op = true → c.Pulls d →
      d.depth < o.maxDepth → Parses o (.production l.tighter) d.enter b e →
      Parses o (.chain l (.binary op a b)) e t f → Parses o (.chain l a) c t f.leave
  | number {c d : Cursor} {v : Binary64} :
      c.depth < o.maxDepth → c.current.token = .number v → v.isExactInteger = true →
      c.enter.Pulls d → Parses o (.production .factor) c (.constant v) d.leave
  | group {c d e f : Cursor} {t : Expr} :
      c.depth < o.maxDepth → c.current.token = .openParen → c.enter.Pulls d →
      Parses o (.production .expression) d t e → e.current.token = .closeParen → e.Pulls f →
      Parses o (.production .factor) c t f.leave
  | sign {c d e : Cursor} {s : Sign} {t : Expr} :
      c.depth < o.maxDepth → c.current.token.sign? = some s → c.enter.Pulls d →
      Parses o (.production .factor) d t e → Parses o (.production .factor) c (.unary s t) e.leave

inductive Fails (o : Options) : Goal → Cursor → Error → Cursor → Prop
  | tooDeep {l : Level} {c : Cursor} :
      o.maxDepth ≤ c.depth →
      Fails o (.production l) c ⟨c.current.start, .nestingTooDeep o.maxDepth⟩ c
  | operand {l : Level} {c d : Cursor} {e : Error} :
      l ≠ .factor → c.depth < o.maxDepth → Fails o (.production l.tighter) c.enter e d →
      Fails o (.production l) c e d.leave
  | chain {l : Level} {c d f : Cursor} {a : Expr} {e : Error} :
      l ≠ .factor → c.depth < o.maxDepth → Parses o (.production l.tighter) c.enter a d →
      Fails o (.chain l a) d e f → Fails o (.production l) c e f.leave
  | illegalOperand {l : Level} {op : BinaryOp} {c d : Cursor} {a : Expr} {e : Error} :
      c.current.token.binaryOp? = some op → l.joins op = true → c.Refuses e d →
      Fails o (.chain l a) c e d
  | right {l : Level} {op : BinaryOp} {c d f : Cursor} {a : Expr} {e : Error} :
      o.grouping = .right → c.current.token.binaryOp? = some op → l.joins op = true → c.Pulls d →
      Fails o (.production l) d e f → Fails o (.chain l a) c e f
  | tooManyLinks {l : Level} {op : BinaryOp} {c d : Cursor} {a : Expr} :
      o.grouping = .left → c.current.token.binaryOp? = some op → l.joins op = true → c.Pulls d →
      o.maxDepth ≤ d.depth →
      Fails o (.chain l a) c ⟨d.current.start, .nestingTooDeep o.maxDepth⟩ d
  | leftOperand {l : Level} {op : BinaryOp} {c d f : Cursor} {a : Expr} {e : Error} :
      o.grouping = .left → c.current.token.binaryOp? = some op → l.joins op = true → c.Pulls d →
      d.depth < o.maxDepth → Fails o (.production l.tighter) d.enter e f →
      Fails o (.chain l a) c e f.leave
  | left {l : Level} {op : BinaryOp} {c d f g : Cursor} {a b : Expr} {e : Error} :
      o.grouping = .left → c.current.token.binaryOp? = some op → l.joins op = true → c.Pulls d →
      d.depth < o.maxDepth → Parses o (.production l.tighter) d.enter b f →
      Fails o (.chain l (.binary op a b)) f e g → Fails o (.chain l a) c e g.leave
  | literalTooLarge {c : Cursor} {v : Binary64} :
      c.depth < o.maxDepth → c.current.token = .number v → v.isExactInteger = false →
      Fails o (.production .factor) c ⟨c.current.start, .literalTooLarge c.current.text⟩ c
  | illegalNext {c d : Cursor} {e : Error} :
      c.depth < o.maxDepth → Opens c.current → c.enter.Refuses e d →
      Fails o (.production .factor) c e d.leave
  | inner {c d f : Cursor} {e : Error} :
      c.depth < o.maxDepth → c.current.token = .openParen → c.enter.Pulls d →
      Fails o (.production .expression) d e f → Fails o (.production .factor) c e f.leave
  | unclosed {c d f : Cursor} {t : Expr} :
      c.depth < o.maxDepth → c.current.token = .openParen → c.enter.Pulls d →
      Parses o (.production .expression) d t f → f.current.token ≠ .closeParen →
      Fails o (.production .factor) c ⟨f.current.start, .expectedClosingParen⟩ f.leave
  | illegalAfter {c d f g : Cursor} {t : Expr} {e : Error} :
      c.depth < o.maxDepth → c.current.token = .openParen → c.enter.Pulls d →
      Parses o (.production .expression) d t f → f.current.token = .closeParen → f.Refuses e g →
      Fails o (.production .factor) c e g.leave
  | sign {c d f : Cursor} {s : Sign} {e : Error} :
      c.depth < o.maxDepth → c.current.token.sign? = some s → c.enter.Pulls d →
      Fails o (.production .factor) d e f → Fails o (.production .factor) c e f.leave
  | endOfInput {c : Cursor} :
      c.depth < o.maxDepth → c.current.token = .endOfInput →
      Fails o (.production .factor) c ⟨c.current.start, .unexpectedEndOfInput⟩ c
  | unexpected {c : Cursor} {x : Token} :
      c.depth < o.maxDepth → c.current.token = x → x = .star ∨ x = .slash ∨ x = .closeParen →
      Fails o (.production .factor) c ⟨c.current.start, .unexpectedToken x.describe⟩ c

/-! ## Where a run ends -/

theorem ne_endOfInput_of_binaryOp {x : Token} {op : BinaryOp} (h : x.binaryOp? = some op) :
    x ≠ .endOfInput := by
  rintro rfl
  cases h

theorem ne_endOfInput_of_sign {x : Token} {s : Sign} (h : x.sign? = some s) : x ≠ .endOfInput := by
  rintro rfl
  cases h

/-- A run of level `l` from `c` leaves the parser at `d`. -/
structure Stands (l : Level) (c d : Cursor) : Prop where
  ready : Ready d.ahead
  stops : l.Stops d.current.token
  depth : d.depth = c.depth
  length_le : d.unread.length ≤ c.unread.length

section
variable {o : Options} {goal : Goal} {c d : Cursor} {t : Expr}

theorem Cursor.Pulls.length (h : c.Pulls d) : d.unread.length + 1 = c.unread.length := by
  rw [h.unread]
  rfl

theorem Parses.stands (h : Parses o goal c t d) (hc : Ready c.ahead) : Stands goal.level c d := by
  induction h with
  | operand _ _ _ _ iha iht =>
    have ha := iha hc
    have ht := iht ha.ready
    refine ⟨ht.ready, ht.stops, ?_, Nat.le_trans ht.length_le ha.length_le⟩
    rw [Cursor.depth_leave, ht.depth, ha.depth]
    rfl
  | stop hs => exact ⟨hc, hs, rfl, Nat.le_refl _⟩
  | right _ hx _ hp _ ih =>
    have hb := ih (hp.ready (hc.unread (ne_endOfInput_of_binaryOp hx)))
    refine ⟨hb.ready, hb.stops, hb.depth.trans hp.depth, ?_⟩
    have := hb.length_le
    have := hp.length
    omega
  | left _ hx _ hp _ _ _ ihb iht =>
    have hb := ihb (hp.ready (hc.unread (ne_endOfInput_of_binaryOp hx)))
    have ht := iht hb.ready
    refine ⟨ht.ready, ht.stops, ?_, ?_⟩
    · rw [Cursor.depth_leave, ht.depth, hb.depth, Cursor.depth_enter, hp.depth]
      rfl
    · have h₁ := ht.length_le
      have h₂ := hb.length_le
      have h₃ := hp.length
      simp only [Cursor.unread_enter, Cursor.unread_leave] at *
      omega
  | number _ hx _ hp =>
    have hr := hp.ready (hc.unread (by rw [hx]; exact nofun))
    refine ⟨hr, Level.stops_factor _, ?_, ?_⟩
    · rw [Cursor.depth_leave, hp.depth]
      rfl
    · have h₁ := hp.length
      simp only [Cursor.unread_enter, Cursor.unread_leave] at *
      omega
  | group _ hx hp _ hy hq ih =>
    have ht := ih (hp.ready (hc.unread (by rw [hx]; decide)))
    have hr := hq.ready (ht.ready.unread (by rw [hy]; decide))
    refine ⟨hr, Level.stops_factor _, ?_, ?_⟩
    · rw [Cursor.depth_leave, hq.depth, ht.depth, hp.depth]
      rfl
    · have h₁ := hp.length
      have h₂ := ht.length_le
      have h₃ := hq.length
      simp only [Cursor.unread_enter, Cursor.unread_leave] at *
      omega
  | sign _ hx hp _ ih =>
    have ht := ih (hp.ready (hc.unread (ne_endOfInput_of_sign hx)))
    refine ⟨ht.ready, Level.stops_factor _, ?_, ?_⟩
    · rw [Cursor.depth_leave, ht.depth, hp.depth]
      rfl
    · have h₁ := hp.length
      have h₂ := ht.length_le
      simp only [Cursor.unread_enter, Cursor.unread_leave] at *
      omega

end

end Calculator.Parse
