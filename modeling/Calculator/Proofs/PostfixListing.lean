import Calculator.Postfix.Reader
import Calculator.Proofs.Words

/-!
# Postfix listings

A listing of a tree has each node behind its operands. Words are evaluated just
when they list a tree, and then to its value: at every moment the stack holds
the values of the trees that the words up to there list one behind the other.
-/

namespace Calculator.Postfix

/-! ## Listings -/

def Operator.word : Operator → String
  | binary op => op.symbol
  | unary s => s.word

/-- The words list the tree in post-order. Its constants are written in any notation. -/
inductive Lists : List String → Expr → Prop
  | constant {word : String} {v : Binary64} :
      (∀ op : Operator, word ≠ op.word) → Binary64.ofText? word = some v → Lists [word] (.constant v)
  | binary {ws us : List String} {op : BinaryOp} {l r : Expr} :
      Lists ws l → Lists us r → Lists (ws ++ (us ++ [op.symbol])) (.binary op l r)
  | unary {ws : List String} {s : Sign} {e : Expr} : Lists ws e → Lists (ws ++ [s.word]) (.unary s e)

/-- The words list the trees one behind the other, the first in `ts` last. -/
inductive ListsAll : List String → (ts : List Expr) → Prop
  | nil : ListsAll [] []
  | cons {ws us : List String} {t : Expr} {ts : List Expr} :
      ListsAll ws ts → Lists us t → ListsAll (ws ++ us) (t :: ts)

section
variable {word : String} {ws : List String} {op : Operator} {t : Expr} {v : Binary64}

theorem ofWord?_eq_some_iff : Operator.ofWord? word = some op ↔ word = op.word := by
  constructor
  · intro h
    unfold Operator.ofWord? at h
    split at h <;> cases h <;> rfl
  · rintro rfl
    rcases op with op | s
    · cases op <;> rfl
    · cases s <;> rfl

theorem ofWord?_eq_none_iff : Operator.ofWord? word = none ↔ ∀ op : Operator, word ≠ op.word := by
  rw [Option.eq_none_iff_forall_ne_some]
  exact forall_congr' fun op => not_congr ofWord?_eq_some_iff

/-! ## One word -/

variable (stack : OperandStack) (index : Nat)

theorem step_constant (hword : ∀ op : Operator, word ≠ op.word) (hv : Binary64.ofText? word = some v) :
    step stack word index = .ok (stack.push v) := by
  rw [step, ofWord?_eq_none_iff.mpr hword]
  dsimp only
  rw [hv]

theorem step_symbol (op : BinaryOp) (a b : Binary64) :
    step ((stack.push a).push b) op.symbol index = .ok (stack.push (op.apply a b)) := by
  cases op <;> rfl

theorem step_sign (s : Sign) (a : Binary64) : step (stack.push a) s.word index = .ok (stack.push (s.apply a)) := by
  cases s <;> rfl

/-! ## Runs -/

theorem runFrom_cons (word : String) (words : List String) :
    runFrom index stack (word :: words) = step stack word index >>= fun reached => runFrom (index + 1) reached words :=
  rfl

theorem runFrom_append (words rest : List String) :
    runFrom index stack (words ++ rest) =
      runFrom index stack words >>= fun reached => runFrom (index + words.length) reached rest := by
  induction words generalizing index stack with
  | nil => rfl
  | cons word words ih =>
    rw [List.cons_append, runFrom_cons, runFrom_cons]
    cases step stack word index with
    | error e => rfl
    | ok reached =>
      have hlength : index + (word :: words).length = index + 1 + words.length := by
        rw [List.length_cons]
        omega
      rw [hlength]
      exact ih reached (index + 1)

/-- The words of a tree push its value on any stack. -/
theorem Lists.runFrom_eq (h : Lists ws t) : runFrom index stack ws = .ok (stack.push t.value) := by
  induction h generalizing stack index with
  | constant hword hv => simp [runFrom, step_constant stack index hword hv, Expr.value, bind, Except.bind]
  | binary _ _ ihl ihr =>
    -- the words of the right operand run on the value of the left one, which lies below theirs at the end
    simp [runFrom_append, runFrom, ihl, ihr, step_symbol, Expr.value, bind, Except.bind]
  | unary _ ih => simp [runFrom_append, runFrom, ih, step_sign, Expr.value, bind, Except.bind]

end

/-! ## The trees on the stack -/

section
variable {word : String} {words ws : List String} {ts : List Expr} {reached : OperandStack} {index : Nat}

/-- A stack that holds the values of trees, the top first. -/
def stackOf (ts : List Expr) : OperandStack := ⟨ts.map Expr.value⟩

theorem ListsAll.step (h : ListsAll ws ts) (hstep : step (stackOf ts) word index = .ok reached) :
    ∃ us, ListsAll (ws ++ [word]) us ∧ reached = stackOf us := by
  rw [Postfix.step] at hstep
  cases hop : Operator.ofWord? word with
  | none =>
    rw [hop] at hstep
    dsimp only at hstep
    cases hv : Binary64.ofText? word with
    | none =>
      rw [hv] at hstep
      cases hstep
    | some v =>
      rw [hv] at hstep
      cases hstep
      exact ⟨.constant v :: ts, h.cons (.constant (ofWord?_eq_none_iff.mp hop) hv), rfl⟩
  | some op =>
    rw [hop] at hstep
    obtain rfl := ofWord?_eq_some_iff.mp hop
    cases op with
    | binary op =>
      -- two trees are on top, or the operator finds too few operands
      cases h with
      | nil => cases hstep
      | @cons _ us r _ hbelow hr =>
        cases hbelow with
        | nil => cases hstep
        | @cons ws vs l ts hws hl =>
          cases hstep
          rw [List.append_assoc, List.append_assoc]
          exact ⟨.binary op l r :: ts, hws.cons (hl.binary hr), rfl⟩
    | unary s =>
      cases h with
      | nil => cases hstep
      | @cons ws us e ts hws he =>
        cases hstep
        rw [List.append_assoc]
        exact ⟨.unary s e :: ts, hws.cons he.unary, rfl⟩

theorem ListsAll.lists {t : Expr} (h : ListsAll ws [t]) : Lists ws t := by
  cases h with
  | cons hnone ht =>
    cases hnone
    exact ht

/-- Words that run through list trees, whose values are left on the stack. -/
theorem ListsAll.run (h : ListsAll ws ts) (hrun : runFrom index (stackOf ts) words = .ok reached) :
    ∃ us, ListsAll (ws ++ words) us ∧ reached = stackOf us := by
  induction words generalizing ws ts index with
  | nil =>
    cases hrun
    exact ⟨ts, by rwa [List.append_nil], rfl⟩
  | cons word words ih =>
    rw [runFrom_cons] at hrun
    cases hstep : Postfix.step (stackOf ts) word index with
    | error e =>
      rw [hstep] at hrun
      cases hrun
    | ok next =>
      rw [hstep] at hrun
      obtain ⟨us, hus, rfl⟩ := h.step hstep
      rw [← List.singleton_append, ← List.append_assoc]
      exact ih hus hrun

end

/-! ## Whole texts -/

theorem Lists.evaluate_eq {text : String} {t : Expr} (h : Lists (Text.words text) t) : evaluate text = .ok t.value := by
  rw [evaluate, h.runFrom_eq]
  rfl

theorem exists_lists_of_evaluate {text : String} {v : Binary64} (h : evaluate text = .ok v) :
    ∃ t, Lists (Text.words text) t ∧ t.value = v := by
  rw [evaluate] at h
  cases hrun : runFrom 0 .empty (Text.words text) with
  | error e =>
    rw [hrun] at h
    cases h
  | ok reached =>
    rw [hrun] at h
    obtain ⟨us, hus, rfl⟩ := ListsAll.nil.run hrun
    -- one value is left on the stack, so one tree is
    match us with
    | [] => cases h
    | [t] =>
      cases h
      exact ⟨t, hus.lists, rfl⟩
    | t :: u :: us => cases h

/-- A text evaluates to a value just when its words list a tree of that value.
How much white space stands around the words does not matter, nor which. -/
theorem evaluate_eq_ok_iff_lists (text : String) :
    (∀ v, evaluate text = .ok v ↔ ∃ words t, Text.Spaced text words ∧ Lists words t ∧ t.value = v) ∧
    (∃ words, Text.Spaced text words ∧ ∀ words', Text.Spaced text words' → words' = words) ∧
    ∀ text' words, Text.Spaced text words → Text.Spaced text' words → evaluate text' = evaluate text := by
  simp only [← Text.words_eq_iff_spaced]
  refine ⟨fun v => ⟨fun h => ?_, ?_⟩, ⟨Text.words text, rfl, fun words' h => h.symm⟩, ?_⟩
  · obtain ⟨t, ht, hv⟩ := exists_lists_of_evaluate h
    exact ⟨Text.words text, t, rfl, ht, hv⟩
  · rintro ⟨words, t, rfl, ht, rfl⟩
    exact ht.evaluate_eq
  · rintro text' words rfl hwords
    rw [evaluate, evaluate, hwords]

end Calculator.Postfix
