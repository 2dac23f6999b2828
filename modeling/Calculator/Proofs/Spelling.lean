import Calculator.Proofs.Cuts

/-!
# Characters that spell tokens

`Spells chars ts` says that the characters are read as the tokens `ts`, whatever
stands behind them, as long as it does not lengthen their last number. Operators,
parentheses and the digit one, each with a blank behind it, are read back as
they are written.
-/

namespace Calculator

open Lexeme

def Spells (chars : List Char) (ts : List Token) : Prop :=
  ∀ position rest, (∀ c ∈ rest.head?, c.isDigit = false) →
    ∃ xs, scanAll position (chars ++ rest) = xs ++ scanAll (position + bytes chars) rest ∧
      xs.map Lexeme.token = ts ∧ ∀ x ∈ xs, x.Readable

namespace Spells
variable {chars more run : List Char} {ts us : List Token} {c : Char}

theorem nil : Spells [] [] := fun _ _ _ => ⟨[], rfl, rfl, List.forall_mem_nil _⟩

theorem blank (h : Spells chars ts) (hc : isBlank c = true) : Spells (c :: chars) ts := by
  intro position rest hrest
  obtain ⟨xs, hscan, hxs, hall⟩ := h (position + bytes [c]) rest hrest
  refine ⟨xs, ?_, hxs, hall⟩
  have hblank := scanAll_blanks (List.forall_mem_singleton.mpr hc) position (chars ++ rest)
  rw [List.singleton_append] at hblank
  rw [List.cons_append, hblank, hscan, bytes_cons c chars, bytes_cons, bytes_nil, Nat.add_zero, Nat.add_assoc]

theorem symbol (h : Spells chars ts) (hb : isBlank c = false) (hd : c.isDigit = false)
    (hlegal : ∀ character, tokenOf c ≠ .illegal character) : Spells (c :: chars) (tokenOf c :: ts) := by
  intro position rest hrest
  obtain ⟨xs, hscan, hxs, hall⟩ := h (position + bytes [c]) rest hrest
  have hreadable : (covering (tokenOf c) [c] position).Readable :=
    ⟨hlegal, fun v hv => absurd hv (tokenOf_ne_number c v)⟩
  refine ⟨covering (tokenOf c) [c] position :: xs, ?_, congrArg _ hxs,
    List.forall_mem_cons.mpr ⟨hreadable, hall⟩⟩
  have hcuts : Cuts [c] (chars ++ rest) (tokenOf c) := .symbol hb hd
  have hsymbol := scanAll_cuts hcuts position
  rw [List.singleton_append] at hsymbol
  rw [List.cons_append, hsymbol, hscan, bytes_cons c chars, bytes_cons, bytes_nil, Nat.add_zero, Nat.add_assoc]
  rfl

theorem digits (hne : run ≠ []) (hrun : ∀ d ∈ run, d.isDigit = true)
    (hsmall : Decimal.runValue run ≤ Binary64.maxExactInteger) :
    Spells run [.number (Binary64.ofNat (Decimal.runValue run))] := by
  intro position rest hrest
  refine ⟨[_], scanAll_cuts (.digits hne hrun hrest) position, rfl, List.forall_mem_singleton.mpr ⟨fun _ => nofun, ?_⟩⟩
  intro v _
  rwa [magnitude_covering]

theorem append (h : Spells chars ts) (h' : Spells (c :: more) us) (hc : c.isDigit = false) :
    Spells (chars ++ c :: more) (ts ++ us) := by
  intro position rest hrest
  have hhead : ∀ d ∈ (c :: more ++ rest).head?, d.isDigit = false := fun d hd => Option.some.inj hd ▸ hc
  obtain ⟨xs, hscan, hxs, hall⟩ := h position (c :: more ++ rest) hhead
  obtain ⟨ys, hscan', hys, hall'⟩ := h' (position + bytes chars) rest hrest
  refine ⟨xs ++ ys, ?_, by rw [List.map_append, hxs, hys], List.forall_mem_append.mpr ⟨hall, hall'⟩⟩
  rw [List.append_assoc, hscan, hscan', bytes_append, Nat.add_assoc, List.append_assoc]

/-- A text that spells the tokens has no other lexemes. -/
theorem words_eq (h : Spells chars ts) :
    (words (String.ofList chars)).map Lexeme.token = ts ∧ ∀ x ∈ words (String.ofList chars), x.Readable := by
  obtain ⟨xs, hscan, hxs, hall⟩ := h 0 [] (fun _ hc => (Option.not_mem_none _ hc).elim)
  have hwords : words (String.ofList chars) = xs := by
    rw [words, lexemes, String.toList_ofList, ← List.append_nil chars, hscan, scanAll_nil, List.dropLast_concat]
  rw [hwords]
  exact ⟨hxs, hall⟩

end Spells

/-! ## Spelled tokens -/

namespace Token

def one : Token := .number (Binary64.ofNat 1)

def letter : Token → Char
  | plus => '+'
  | minus => '-'
  | star => '*'
  | slash => '/'
  | openParen => '('
  | closeParen => ')'
  | number _ => '1'
  | endOfInput => ' '
  | illegal c => c

/-- An operator, a parenthesis or the number one. -/
def Plain : Token → Prop
  | number v => v = Binary64.ofNat 1
  | endOfInput | illegal _ => False
  | _ => True

end Token

def spelled (ts : List Token) : List Char := ts.flatMap fun x => [x.letter, ' ']

section
variable {ts : List Token} {x : Token} {chars : List Char}

theorem Spells.letter (h : Spells chars ts) (hx : x.Plain) : Spells (x.letter :: ' ' :: chars) (x :: ts) := by
  have hrest : Spells (' ' :: chars) ts := h.blank rfl
  cases x with
  | number v =>
    have hone : Spells ['1'] [.one] := .digits (List.cons_ne_nil _ _) (List.forall_mem_singleton.mpr rfl) (by decide)
    have hv : Token.number v = .one := congrArg Token.number hx
    rw [hv]
    exact hone.append hrest rfl
  | endOfInput => cases hx
  | illegal c => cases hx
  | _ => exact hrest.symbol rfl rfl fun character => nofun

theorem spells_spelled (hts : ∀ x ∈ ts, x.Plain) : Spells (spelled ts) ts := by
  induction ts with
  | nil => exact .nil
  | cons x ts ih =>
    rw [List.forall_mem_cons] at hts
    exact (ih hts.2).letter hts.1

theorem exists_source (hts : ∀ x ∈ ts, x.Plain) :
    ∃ source, (words source).map Lexeme.token = ts ∧ ∀ x ∈ words source, x.Readable :=
  ⟨_, (spells_spelled hts).words_eq⟩

end

end Calculator
