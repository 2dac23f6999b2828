import Calculator.Proofs.PostfixListing
import Calculator.Proofs.StackRuns
import Mathlib.Data.List.Induction

/-!
# Arities of postfix words

A run over postfix words does to the depth of the stack what their arities say,
whatever the values are (`map_depth_runFrom`). The depth is the number of numbers
less that of binary operators read so far. So where postfix text fails, and how,
is a matter of counting: the first word that is unknown or lacks operands
(`evaluate_of_firstBad`), or else what is left at the end (`evaluate_of_noneBad`).
-/

namespace Calculator.Postfix

/-! ## Kinds of words -/

inductive Kind where
  | number | binary | sign | unknown
  deriving DecidableEq

def kind (word : String) : Kind :=
  if word ∈ ["+", "-", "*", "/"] then .binary
  else if word ∈ ["pos", "neg"] then .sign
  else if (Binary64.ofText? word).isSome then .number
  else .unknown

/-- The numbers among the words less the binary operators. -/
def height (words : List String) : Int :=
  words.countP (kind · = .number) - words.countP (kind · = .binary)

/-- Behind the words `before` the word is unknown, or an operator for which they leave too little. -/
def Bad (before : List String) (word : String) : Prop :=
  match kind word with
  | .number => False
  | .binary => height before < 2
  | .sign => height before < 1
  | .unknown => True

def fault (index available : Nat) (word : String) : EvaluationError :=
  match kind word with
  | .binary => .stackUnderflow word 2 available
  | .sign => .stackUnderflow word 1 available
  | .number | .unknown => .unknownWord word index

def NoneBad (words : List String) : Prop :=
  ∀ before word after, words = before ++ word :: after → ¬ Bad before word

structure FirstBad (words before : List String) (word : String) : Prop where
  split : ∃ after, words = before ++ word :: after
  bad : Bad before word
  none : NoneBad before

/-- A word without the value that it writes, if it is a number. -/
def sketch (word : String) : Option String := if kind word = .number then none else some word

section
variable {word : String} {words before : List String}

theorem kind_eq (word : String) : kind word = match Operator.ofWord? word with
    | some (.binary _) => .binary
    | some (.unary _) => .sign
    | none => if (Binary64.ofText? word).isSome then .number else .unknown := by
  cases hop : Operator.ofWord? word with
  | some op =>
    obtain rfl := ofWord?_eq_some_iff.mp hop
    cases op with
    | binary op => cases op <;> rfl
    | unary s => cases s <;> rfl
  | none =>
    have hword := ofWord?_eq_none_iff.mp hop
    have hbinary : word ∉ ["+", "-", "*", "/"] := by
      simp only [List.mem_cons, List.not_mem_nil, or_false, not_or]
      exact ⟨hword (.binary .add), hword (.binary .sub), hword (.binary .mul), hword (.binary .div)⟩
    have hsign : word ∉ ["pos", "neg"] := by
      simp only [List.mem_cons, List.not_mem_nil, or_false, not_or]
      exact ⟨hword (.unary .plus), hword (.unary .minus)⟩
    rw [kind, if_neg hbinary, if_neg hsign]

theorem height_concat (words : List String) (word : String) :
    height (words ++ [word]) = height words + match kind word with
      | .number => 1
      | .binary => -1
      | .sign | .unknown => 0 := by
  simp only [height, List.countP_append, List.countP_singleton]
  cases kind word <;> simp <;> omega

/-! ## One word -/

/-- What a word does to the number of values on the stack. -/
def stepHeight (depth : Nat) (word : String) (index : Nat) : Except EvaluationError Nat :=
  match kind word with
  | .number => .ok (depth + 1)
  | .binary => if depth < 2 then .error (fault index depth word) else .ok (depth - 1)
  | .sign => if depth < 1 then .error (fault index depth word) else .ok depth
  | .unknown => .error (fault index depth word)

theorem map_depth_step (stack : OperandStack) (word : String) (index : Nat) :
    (step stack word index).map OperandStack.depth = stepHeight stack.depth word index := by
  obtain ⟨values⟩ := stack
  unfold step stepHeight fault
  rw [kind_eq]
  cases Operator.ofWord? word with
  | none => cases Binary64.ofText? word <;> rfl
  | some op =>
    cases op with
    | binary op =>
      match values with
      | [] => rfl
      | [_] => rfl
      | _ :: _ :: _ => rfl
    | unary s => cases values <;> rfl

theorem stepHeight_of_bad {depth : Nat} (hdepth : height before = depth) (h : Bad before word) (index : Nat) :
    stepHeight depth word index = .error (fault index depth word) := by
  unfold Bad at h
  unfold stepHeight
  rw [hdepth] at h
  cases hk : kind word <;> simp only [hk] at h ⊢
  case binary => exact if_pos (by omega)
  case sign => exact if_pos (by omega)

theorem exists_stepHeight {depth : Nat} (hdepth : height before = depth) (h : ¬ Bad before word) (index : Nat) :
    ∃ reached : Nat, stepHeight depth word index = .ok reached ∧ height (before ++ [word]) = reached ∧ 0 < reached := by
  unfold Bad at h
  unfold stepHeight
  rw [height_concat]
  rw [hdepth] at h ⊢
  cases hk : kind word <;> simp only [hk] at h ⊢
  case number => exact ⟨depth + 1, rfl, by omega, by omega⟩
  case binary => exact ⟨depth - 1, if_neg (by omega), by omega, by omega⟩
  case sign => exact ⟨depth, if_neg (by omega), by omega, by omega⟩
  case unknown => exact absurd trivial h

/-! ## Runs -/

theorem noneBad_nil : NoneBad [] := by
  intro before word after hsplit
  simp at hsplit

theorem noneBad_concat : NoneBad (words ++ [word]) ↔ NoneBad words ∧ ¬ Bad words word := by
  constructor
  · intro h
    refine ⟨fun before w after hsplit => h before w (after ++ [word]) ?_, h words word [] rfl⟩
    rw [hsplit, List.append_assoc, List.cons_append]
  · rintro ⟨hwords, hword⟩ before w after hsplit
    rcases List.eq_nil_or_concat after with rfl | ⟨after, last, rfl⟩
    · obtain ⟨rfl, heq⟩ := List.append_inj' hsplit rfl
      cases heq
      exact hword
    · rw [List.concat_eq_append, ← List.cons_append, ← List.append_assoc] at hsplit
      exact hwords before w after (List.append_inj' hsplit rfl).1

/-- A run with the depth of the stack in its place. -/
def runHeight (index depth : Nat) : List String → Except EvaluationError Nat
  | [] => .ok depth
  | word :: rest => do runHeight (index + 1) (← stepHeight depth word index) rest

theorem runHeight_cons (index depth : Nat) (word : String) (rest : List String) :
    runHeight index depth (word :: rest) =
      stepHeight depth word index >>= fun reached => runHeight (index + 1) reached rest := rfl

theorem map_depth_runFrom (index : Nat) (stack : OperandStack) (words : List String) :
    (runFrom index stack words).map OperandStack.depth = runHeight index stack.depth words := by
  induction words generalizing index stack with
  | nil => rfl
  | cons word words ih =>
    rw [runFrom_cons, runHeight_cons, ← map_depth_step]
    cases step stack word index with
    | error e => rfl
    | ok reached => exact ih (index + 1) reached

theorem runHeight_append (index depth : Nat) (words rest : List String) :
    runHeight index depth (words ++ rest) =
      runHeight index depth words >>= fun reached => runHeight (index + words.length) reached rest := by
  induction words generalizing index depth with
  | nil => rfl
  | cons word words ih =>
    rw [List.cons_append, runHeight_cons, runHeight_cons, List.length_cons, Nat.add_comm words.length,
      ← Nat.add_assoc]
    cases stepHeight depth word index with
    | error e => rfl
    | ok reached => exact ih (index + 1) reached

/-- Words of which none is bad leave as many values as they count. -/
theorem exists_runHeight (h : NoneBad words) : ∃ depth : Nat, runHeight 0 0 words = .ok depth ∧
    height words = depth ∧ (words ≠ [] → 0 < depth) := by
  -- from the end, since a word is judged by those in front of it
  induction words using List.reverseRecOn with
  | nil => exact ⟨0, rfl, rfl, fun hne => absurd rfl hne⟩
  | append_singleton words word ih =>
    obtain ⟨hwords, hword⟩ := noneBad_concat.mp h
    obtain ⟨depth, hrun, hheight, _⟩ := ih hwords
    obtain ⟨reached, hstep, hheight', hpos⟩ := exists_stepHeight hheight hword (0 + words.length)
    refine ⟨reached, ?_, hheight', fun _ => hpos⟩
    rw [runHeight_append, hrun]
    exact congrArg (· >>= Except.ok) hstep

theorem runHeight_of_firstBad (h : FirstBad words before word) : ∃ available : Nat, height before = available ∧
    runHeight 0 0 words = .error (fault before.length available word) := by
  obtain ⟨⟨after, rfl⟩, hbad, hnone⟩ := h
  obtain ⟨depth, hrun, hheight, _⟩ := exists_runHeight hnone
  refine ⟨depth, hheight, ?_⟩
  rw [runHeight_append, hrun]
  show runHeight (0 + before.length) depth (word :: after) = _
  rw [runHeight_cons, stepHeight_of_bad hheight hbad, Nat.zero_add]
  rfl

theorem exists_firstBad (h : ¬ NoneBad words) : ∃ before word, FirstBad words before word := by
  induction words using List.reverseRecOn with
  | nil => exact absurd noneBad_nil h
  | append_singleton words word ih =>
    by_cases hwords : NoneBad words
    · by_cases hword : Bad words word
      · exact ⟨words, word, ⟨[], rfl⟩, hword, hwords⟩
      · exact absurd (noneBad_concat.mpr ⟨hwords, hword⟩) h
    · obtain ⟨before, w, ⟨after, hsplit⟩, hbad, hnone⟩ := ih hwords
      refine ⟨before, w, ⟨after ++ [word], ?_⟩, hbad, hnone⟩
      rw [hsplit, List.append_assoc, List.cons_append]

/-! ## Words that differ in their values -/

theorem stepHeight_congr {word' : String} (h : sketch word = sketch word') (depth index : Nat) :
    stepHeight depth word index = stepHeight depth word' index := by
  unfold sketch at h
  by_cases hk : kind word = .number <;> by_cases hk' : kind word' = .number <;> simp [hk, hk'] at h
  · simp [stepHeight, hk, hk']
  · rw [h]

theorem runHeight_congr {words' : List String} (h : words.map sketch = words'.map sketch) (index depth : Nat) :
    runHeight index depth words = runHeight index depth words' := by
  induction words generalizing words' index depth with
  | nil =>
    obtain rfl : words' = [] := by simpa using h.symm
    rfl
  | cons word words ih =>
    cases words' with
    | nil => simp at h
    | cons word' words' =>
      obtain ⟨hword, hwords⟩ := List.cons.inj h
      rw [runHeight_cons, runHeight_cons, stepHeight_congr hword]
      cases stepHeight depth word' index with
      | error e => rfl
      | ok reached => exact ih hwords (index + 1) reached

/-! ## Whole texts -/

theorem map_finish (stack : OperandStack) : stack.finish.map (fun _ => ()) =
    if stack.depth = 1 then .ok () else .error (.stackImbalance stack.depth) := by
  by_cases h : stack.depth = 1
  · obtain ⟨v, hv⟩ := List.length_eq_one_iff.mp h
    rw [if_pos h, OperandStack.finish, hv]
    rfl
  · rw [if_neg h, OperandStack.finish_of_depth_ne_one h]
    rfl

/-- Up to its value, the evaluation is a run over depths. -/
theorem map_evaluate (text : String) : (evaluate text).map (fun _ => ()) =
    runHeight 0 0 (Text.words text) >>= fun depth =>
      if depth = 1 then .ok () else .error (.stackImbalance depth) := by
  have hrun : _ = runHeight 0 0 (Text.words text) := map_depth_runFrom 0 .empty (Text.words text)
  rw [evaluate, ← hrun]
  cases runFrom 0 .empty (Text.words text) with
  | error e => rfl
  | ok reached => exact map_finish reached

theorem evaluate_of_firstBad {text : String} (h : FirstBad (Text.words text) before word) :
    ∃ available : Nat, height before = available ∧ evaluate text = .error (fault before.length available word) := by
  obtain ⟨available, hheight, hrun⟩ := runHeight_of_firstBad h
  have hmap := map_evaluate text
  rw [hrun] at hmap
  cases heval : evaluate text with
  | ok v => rw [heval] at hmap; cases hmap
  | error e => rw [heval] at hmap; cases hmap; exact ⟨available, hheight, rfl⟩

theorem evaluate_of_noneBad {text : String} (h : NoneBad (Text.words text)) :
    ∃ depth : Nat, height (Text.words text) = depth ∧ (depth = 0 ↔ Text.words text = []) ∧
      if depth = 1 then ∃ v, evaluate text = .ok v else evaluate text = .error (.stackImbalance depth) := by
  obtain ⟨depth, hrun, hheight, hpos⟩ := exists_runHeight h
  have hmap := map_evaluate text
  rw [hrun] at hmap
  change _ = if depth = 1 then _ else _ at hmap
  refine ⟨depth, hheight, ⟨fun hzero => ?_, fun hnil => ?_⟩, ?_⟩
  · by_cases hnil : Text.words text = []
    · exact hnil
    · exact absurd hzero (Nat.ne_of_gt (hpos hnil))
  · rw [hnil] at hheight
    exact Int.ofNat.inj hheight.symm
  · by_cases hone : depth = 1
    · rw [if_pos hone] at hmap ⊢
      cases heval : evaluate text with
      | ok v => exact ⟨v, rfl⟩
      | error e => rw [heval] at hmap; cases hmap
    · rw [if_neg hone] at hmap ⊢
      cases heval : evaluate text with
      | ok v => rw [heval] at hmap; cases hmap
      | error e => rw [heval] at hmap; cases hmap; rfl

/-- Whether postfix text has a value, and what is wrong with it otherwise, is decided by counting its
words. What its numbers are plays no part. -/
theorem evaluate_decided_by_arities (text : String) :
    (¬ NoneBad (Text.words text) → ∃ before word, FirstBad (Text.words text) before word) ∧
    (∀ before word, FirstBad (Text.words text) before word → ∃ available : Nat, height before = available ∧
      evaluate text = .error (fault before.length available word)) ∧
    (NoneBad (Text.words text) → ∃ depth : Nat, height (Text.words text) = depth ∧
      (depth = 0 ↔ Text.words text = []) ∧
      if depth = 1 then ∃ v, evaluate text = .ok v else evaluate text = .error (.stackImbalance depth)) ∧
    ∀ text', (Text.words text').map sketch = (Text.words text).map sketch →
      (evaluate text').map (fun _ => ()) = (evaluate text).map fun _ => () := by
  refine ⟨exists_firstBad, fun before word => evaluate_of_firstBad, evaluate_of_noneBad, fun text' h => ?_⟩
  rw [map_evaluate, map_evaluate, runHeight_congr h]

end

example : evaluate "2 neg + 3" = .error (.stackUnderflow "+" 2 1) := by decide +kernel

end Calculator.Postfix
