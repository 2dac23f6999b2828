import Calculator.Proofs.FirstError
import Calculator.Proofs.LexerCalls
import Calculator.Proofs.NumberText
import Calculator.Proofs.Places

/-!
# What follows an expression

To see that an expression is complete the parser reads one lexeme behind it. Where
what follows is tolerated, that lexeme is the only one of it that counts, and it
counts only when it is an illegal character.
-/

namespace Calculator

namespace Lexeme

/-! ## The first lexeme -/

/-- Is `x` a lexeme that starts with the character `c`? -/
def StartsWith (c : Char) (x : Lexeme) : Prop :=
  isBlank c = false ∧ if c.isDigit then ∃ v, x.token = .number v else x.token = tokenOf c

section
variable {text rest : List Char} {token : Token} {c : Char} {x : Lexeme}

theorem Cuts.startsWith (h : Cuts text rest token) (position : Nat) :
    ∃ c, text.head? = some c ∧ (covering token text position).StartsWith c := by
  cases h with
  | @symbol c _ hb hd => exact ⟨c, rfl, hb, by simp [hd, covering]⟩
  | digits hne hrun hrest =>
    obtain ⟨c, run, rfl⟩ := List.exists_cons_of_ne_nil hne
    have hdigit : c.isDigit = true := hrun c List.mem_cons_self
    exact ⟨c, rfl, isBlank_of_isDigit hdigit, by simp [hdigit, covering]⟩

theorem exists_scanAll_eq_cons (position : Nat) (chars : List Char) :
    ∃ x xs, scanAll position chars = x :: xs ∧
      match (chars.dropWhile isBlank).head? with
      | none => x.token = .endOfInput
      | some c => x.StartsWith c ∧ x.start = position + (chars.takeWhile isBlank).length := by
  rcases exists_cuts chars with hblanks | ⟨blanks, text, rest, token, hblanks, hcuts, rfl⟩
  · refine ⟨_, [], scanAll_of_blank hblanks position, ?_⟩
    rw [List.dropWhile_eq_nil_iff.mpr hblanks]
    rfl
  · obtain ⟨c, hc, hstarts⟩ := hcuts.startsWith (position + bytes blanks)
    obtain ⟨text, rfl⟩ := List.head?_eq_some_iff.mp hc
    have hb : ¬ isBlank c = true := by simp [hstarts.1]
    refine ⟨_, _, (scanAll_blanks hblanks position _).trans (scanAll_cuts hcuts _), ?_⟩
    rw [List.dropWhile_append_of_pos hblanks, List.takeWhile_append_of_pos hblanks, List.cons_append,
      List.dropWhile_cons_of_neg hb, List.takeWhile_cons_of_neg hb, List.append_nil]
    exact ⟨hstarts, congrArg _ (bytes_of_isBlank hblanks)⟩

theorem mem_alphabet_of_isDigit (h : c.isDigit = true) : c ∈ alphabet := by
  have hdigits : ∀ n ∈ List.range' 48 10, Char.ofNat n ∈ alphabet := by decide
  obtain ⟨hlow, hhigh⟩ := toNat_of_isDigit h
  have hc := hdigits c.toNat (List.mem_range'_1.mpr ⟨hlow, by omega⟩)
  rwa [Char.ofNat_toNat] at hc

theorem StartsWith.token_cases (h : x.StartsWith c) (hop : c ∉ ['+', '-', '*', '/']) :
    x.token.binaryOp? = none ∧
      (c ∈ alphabet ∧ (∀ d, x.token ≠ .illegal d) ∨ c ∉ alphabet ∧ x.token = .illegal c) := by
  obtain ⟨hb, h⟩ := h
  cases hd : c.isDigit with
  | true =>
    rw [if_pos hd] at h
    obtain ⟨v, hv⟩ := h
    rw [hv]
    exact ⟨rfl, .inl ⟨mem_alphabet_of_isDigit hd, fun d => nofun⟩⟩
  | false =>
    rw [if_neg (by simp [hd])] at h
    rw [h]
    by_cases hopen : c = '('
    · subst hopen
      exact ⟨rfl, .inl ⟨by decide, fun d => nofun⟩⟩
    by_cases hclose : c = ')'
    · subst hclose
      exact ⟨rfl, .inl ⟨by decide, fun d => nofun⟩⟩
    have htoken : tokenOf c = .illegal c := by
      simp only [List.mem_cons, List.not_mem_nil, or_false, not_or] at hop
      simp [tokenOf, hop, hopen, hclose]
    rw [htoken]
    exact ⟨rfl, .inr ⟨notMem_alphabet hb hd htoken, rfl⟩⟩

end

end Lexeme

namespace Parse

open Lexeme

/-! ## Complete expressions -/

namespace Place

/-- What has been read is an expression. -/
def Complete (p : Place) : Prop := p.due = .operator ∧ p.outer.length = 0

section
variable {limit : Nat} {lenient : Bool} {p : Place} {x : Lexeme}

theorem Complete.not_overloaded (h : p.Complete) : p.overloaded limit x = false := by
  simp [overloaded, h.1]

theorem Complete.next_eq_none (h : p.Complete) (hx : x.token.binaryOp? = none) : p.next x = none := by
  unfold Place.next
  rw [h.1, h.2]
  cases ht : x.token <;> simp [ht, Token.binaryOp?] at hx <;> simp [classify, ht, Token.binaryOp?]

theorem Complete.verdict_endOfInput (h : p.Complete) (hx : x.token = .endOfInput) :
    p.verdict limit lenient x = .ok () := by
  rw [verdict_eq_ok_iff h.not_overloaded, h.1, h.2]
  exact ⟨.finish, classify_end hx⟩

theorem Complete.verdict_lenient (h : p.Complete) (hop : x.token.binaryOp? = none)
    (hx : ∀ c, x.token ≠ .illegal c) : p.verdict limit true x = .ok () := by
  rw [verdict_eq_ok_iff h.not_overloaded, h.1, h.2]
  exact ⟨.finish, classify_finish hx hop (.inl rfl)⟩

theorem Complete.verdict_illegal {c : Char} (h : p.Complete) (hx : x.token = .illegal c) :
    p.verdict limit lenient x = .error (.illegalCharacter c) := by
  rw [verdict_eq_error_iff h.not_overloaded]
  exact classify_illegal hx _

theorem finish_of_classify (h : classify false x p.due p.outer.length = .ok .finish) :
    p.Complete ∧ x.token = .endOfInput := by
  unfold Complete
  generalize p.due = phase, p.outer.length = opened at h ⊢
  cases phase with
  | operand =>
    cases hx : x.token with
    | number v => by_cases hm : x.magnitude ≤ Binary64.maxExactInteger <;> simp [classify, hx, hm] at h
    | _ => simp [classify, hx] at h
  | operator => cases hx : x.token <;> cases opened <;> simp [classify, hx, Token.binaryOp?] at h ⊢

/-- Tolerance changes the answer at one kind of place. -/
theorem verdict_lenient_cases (limit : Nat) (p : Place) (x : Lexeme) :
    (p.verdict limit true x = p.verdict limit false x ∧
      ∀ token, p.verdict limit true x ≠ .error (.unexpectedTrailingTokens token)) ∨
    p.Complete ∧ p.verdict limit true x = .ok () ∧
      ∃ token, p.verdict limit false x = .error (.unexpectedTrailingTokens token) := by
  cases hover : p.overloaded limit x with
  | true =>
    refine .inl ⟨?_, fun token => ?_⟩
    · rw [verdict_of_overloaded hover, verdict_of_overloaded hover]
    · rw [verdict_of_overloaded hover]
      exact nofun
  | false =>
    rcases classify_lenient x p.due p.outer.length with ⟨heq, hne⟩ | ⟨hdue, houter, hfinish, htrailing⟩
    · refine .inl ⟨?_, fun token => ?_⟩
      · rw [verdict, verdict, heq]
      · rw [Ne, verdict_eq_error_iff hover]
        exact hne token
    · exact .inr ⟨⟨hdue, houter⟩, (verdict_eq_ok_iff hover).mpr ⟨_, hfinish⟩, _,
        (verdict_eq_error_iff hover).mpr htrailing⟩

end

end Place

/-! ## The text of a complete expression -/

section
variable {source text more : String} {before rest : List Lexeme} {x : Lexeme} {g : Grouping} {limit : Nat} {t : Expr}

/-- The lexemes before `x` are those of the text before it. -/
theorem exists_upTo (h : lexemes source = before ++ x :: rest) :
    ∃ text y, UpTo source x.start text ∧ lexemes text = before ++ [y] ∧ y.token = .endOfInput := by
  obtain ⟨first, last, hsource, hheads, hsplit⟩ := exists_split h
  simp only [Nat.zero_add] at hheads hsplit
  have hstart : x.start = bytes first := by cases hheads <;> rfl
  refine ⟨String.ofList first, endAt (bytes first), ⟨String.ofList last, ?_, hstart.symm⟩, ?_, rfl⟩
  · rw [← String.ofList_append, ← hsource, String.ofList_toList]
  · have hfirst := hsplit [] nofun
    rw [List.append_nil, scanAll_nil] at hfirst
    rwa [lexemes, String.toList_ofList]

/-- Tolerance for what follows an expression makes a difference only where something does, and
then the answer is that for the text before it. -/
theorem lenient_differs_on_trailing (source : String) (g : Grouping) (limit : Nat) :
    match parse source ⟨g, false, limit⟩ with
    | .ok t => parse source ⟨g, true, limit⟩ = .ok t
    | .error ⟨p, .unexpectedTrailingTokens _⟩ =>
      ∃ text t, UpTo source p text ∧ parse text ⟨g, false, limit⟩ = .ok t ∧ parse source ⟨g, true, limit⟩ = .ok t
    | .error e => parse source ⟨g, true, limit⟩ = .error e := by
  obtain ⟨before, x, rest, p, hhalts⟩ := Place.exists_halts (stream_lexemes source) limit .start
  rcases p.verdict_lenient_cases limit x with ⟨heq, hne⟩ | ⟨hcomplete, hlenient, token, hstrict⟩
  · cases hv : p.verdict limit true x with
    | ok _ =>
      obtain ⟨t, ht, ht'⟩ := exists_parse_of_same_place (g := g) hhalts (heq.symm.trans hv) hhalts hv
      rw [ht]
      exact ht'
    | error cause =>
      rw [parse_of_halts_error hhalts (heq.symm.trans hv), parse_of_halts_error hhalts hv]
      cases cause with
      | unexpectedTrailingTokens token => exact absurd hv (hne token)
      | _ => rfl
  · -- the text before `x` leads to the same place, and there its end stands instead of `x`
    obtain ⟨text, y, hupTo, htext, hy⟩ := exists_upTo hhalts.split
    have hhalts' : Place.start.Halts limit (lexemes text) before y [] p :=
      ⟨htext, hhalts.reads, .inr (Place.next_of_endOfInput hy)⟩
    obtain ⟨t, ht, ht'⟩ := exists_parse_of_same_place (g := g) hhalts' (hcomplete.verdict_endOfInput hy) hhalts hlenient
    rw [parse_of_halts_error hhalts hstrict]
    exact ⟨text, t, hupTo, ht, ht'⟩

theorem exists_halts_of_parse_ok (h : parse source ⟨g, false, limit⟩ = .ok t) :
    ∃ y p, Place.start.Halts limit (lexemes source) (words source) y [] p ∧ p.Complete ∧ y.token = .endOfInput := by
  obtain ⟨before, x, rest, p, hhalts⟩ := Place.exists_halts (stream_lexemes source) limit .start
  have hover : p.overloaded limit x = false := by
    rw [← Bool.not_eq_true]
    intro hover
    cases h.symm.trans (parse_of_halts_error hhalts (Place.verdict_of_overloaded hover))
  cases hm : classify false x p.due p.outer.length with
  | error cause => cases h.symm.trans (parse_of_halts_error hhalts ((Place.verdict_eq_error_iff hover).mpr hm))
  | ok move =>
    have hnext : p.next x = none := hhalts.stuck.resolve_left (by simp [hover])
    cases Place.eq_finish_of_next hnext hm
    obtain ⟨hcomplete, hx⟩ := Place.finish_of_classify hm
    have hstream : Lexeme.Stream (x :: rest) := (hhalts.split ▸ stream_lexemes source).of_append (List.cons_ne_nil _ _)
    cases hstream.tail_eq_nil hx
    have hwords : words source = before := by rw [words, hhalts.split, List.dropLast_concat]
    exact ⟨x, p, hwords ▸ hhalts, hcomplete, hx⟩

/-- `more` goes on neither with the expression `text` nor with a number at its end. -/
structure Detached (text more : String) : Prop where
  operator : ∀ c ∈ (more.toList.dropWhile isBlank).head?, c ∉ ['+', '-', '*', '/']
  number : Apart text.toList more.toList

/-- What follows an expression is ignored when it is tolerated, unless it starts with an illegal character. -/
theorem parse_append_lenient (h : parse text ⟨g, false, limit⟩ = .ok t) (hmore : Detached text more) :
    parse (text ++ more) ⟨g, true, limit⟩ =
      match (more.toList.dropWhile isBlank).head? with
      | none => .ok t
      | some c =>
        if c ∈ alphabet then .ok t
        else .error ⟨text.utf8ByteSize + (more.toList.takeWhile isBlank).length, .illegalCharacter c⟩ := by
  obtain ⟨y, p, hhalts, hcomplete, hy⟩ := exists_halts_of_parse_ok h
  obtain ⟨x, xs, hscan, hhead⟩ := exists_scanAll_eq_cons text.utf8ByteSize more.toList
  have hsplit : lexemes (text ++ more) = words text ++ x :: xs := by rw [lexemes_append hmore.number, hscan]
  have hsame : p.next x = none → p.verdict limit true x = .ok () → parse (text ++ more) ⟨g, true, limit⟩ = .ok t := by
    intro hnext hv
    obtain ⟨u, hu, hu'⟩ := exists_parse_of_same_place (g := g) hhalts (hcomplete.verdict_endOfInput hy)
      ⟨hsplit, hhalts.reads, .inr hnext⟩ hv
    cases h.symm.trans hu
    exact hu'
  cases hc : (more.toList.dropWhile isBlank).head? with
  | none =>
    rw [hc] at hhead
    exact hsame (Place.next_of_endOfInput hhead) (hcomplete.verdict_endOfInput hhead)
  | some c =>
    rw [hc] at hhead
    obtain ⟨hstarts, hstart⟩ := hhead
    obtain ⟨hop, hcases⟩ := hstarts.token_cases (hmore.operator c hc)
    have hnext : p.next x = none := hcomplete.next_eq_none hop
    rcases hcases with ⟨hlegal, hx⟩ | ⟨hillegal, hx⟩
    · simp only [if_pos hlegal]
      exact hsame hnext (hcomplete.verdict_lenient hop hx)
    · simp only [if_neg hillegal]
      rw [parse_of_halts_error ⟨hsplit, hhalts.reads, .inr hnext⟩ (hcomplete.verdict_illegal hx), hstart]

theorem parse_append_lenient_digit :
    parse "(1)" ⟨.left, false, 512⟩ = .ok (.constant (.ofNat 1)) ∧ Detached "(1)" "2 $" ∧
      parse ("(1)" ++ "2 $") ⟨.left, true, 512⟩ = .ok (.constant (.ofNat 1)) := by
  have h : parse "(1)" ⟨.left, false, 512⟩ = .ok (.constant (.ofNat 1)) := by decide +kernel
  have hmore : Detached "(1)" "2 $" := ⟨by simp [isBlank], by simp [Apart]⟩
  exact ⟨h, hmore, parse_append_lenient h hmore⟩

theorem trailing_illegal_not_ignored :
    ¬ ∀ text more g limit t, parse text ⟨g, false, limit⟩ = .ok t → Detached text more →
      parse (text ++ more) ⟨g, true, limit⟩ = .ok t := by
  intro h
  have htwo : parse "2" ⟨.right, false, 512⟩ = .ok (.constant (.ofNat 2)) := by decide +kernel
  have hrefused : parse ("2" ++ " $ 3") ⟨.right, true, 512⟩ = .error ⟨2, .illegalCharacter '$'⟩ := by decide +kernel
  have hmore : Detached "2" " $ 3" := ⟨by simp [isBlank], by simp [Apart]⟩
  cases hrefused.symm.trans (h _ _ _ _ _ htwo hmore)

end

end Parse

end Calculator
