import Calculator.Proofs.LexemeStream

/-!
# Cutting lexemes off the front

`Cuts text rest token` says what one lexeme is: a run of digits that does not go
on in `rest`, or one character that is neither digit nor blank. Characters are
blanks only or start, behind blanks, with one lexeme (`exists_cuts`), and the
scanner takes that one (`scan_cuts`).
-/

namespace Calculator

namespace Lexeme

/-! ## Bytes -/

/-- The bytes that the characters take in UTF-8. -/
def bytes (chars : List Char) : Nat := (String.ofList chars).utf8ByteSize

theorem bytes_nil : bytes [] = 0 := rfl

theorem bytes_cons (c : Char) (rest : List Char) : bytes (c :: rest) = c.utf8Size + bytes rest := by
  rw [bytes, String.ofList_cons, String.utf8ByteSize_append, String.utf8ByteSize_singleton, bytes]

theorem bytes_append (first rest : List Char) : bytes (first ++ rest) = bytes first + bytes rest := by
  rw [bytes, String.ofList_append, String.utf8ByteSize_append, bytes, bytes]

theorem utf8Size_of_isDigit {c : Char} (h : c.isDigit = true) : c.utf8Size = 1 := by
  simp only [Char.isDigit, Bool.and_eq_true, decide_eq_true_eq] at h
  have hascii : c.val ≤ 127 := UInt32.le_trans h.2 (by decide)
  simp [Char.utf8Size, hascii]

theorem utf8Size_of_isBlank {c : Char} (h : isBlank c = true) : c.utf8Size = 1 := by
  simp only [isBlank, Bool.or_eq_true, decide_eq_true_eq] at h
  rcases h with rfl | rfl <;> rfl

theorem bytes_eq_length {chars : List Char} (h : ∀ c ∈ chars, c.utf8Size = 1) : bytes chars = chars.length := by
  induction chars with
  | nil => rfl
  | cons c chars ih =>
    rw [List.forall_mem_cons] at h
    rw [bytes_cons, h.1, ih h.2, List.length_cons, Nat.add_comm]

theorem bytes_of_isDigit {run : List Char} (h : ∀ c ∈ run, c.isDigit = true) : bytes run = run.length :=
  bytes_eq_length fun c hc => utf8Size_of_isDigit (h c hc)

theorem bytes_of_isBlank {blanks : List Char} (h : ∀ c ∈ blanks, isBlank c = true) : bytes blanks = blanks.length :=
  bytes_eq_length fun c hc => utf8Size_of_isBlank (h c hc)

/-! ## Cuts -/

inductive Cuts : (text rest : List Char) → Token → Prop
  | digits {run rest : List Char} :
      run ≠ [] → (∀ c ∈ run, c.isDigit = true) → (∀ c ∈ rest.head?, c.isDigit = false) →
      Cuts run rest (.number (Binary64.ofNat (Decimal.runValue run)))
  | symbol {c : Char} {rest : List Char} :
      isBlank c = false → c.isDigit = false → Cuts [c] rest (tokenOf c)

/-- The lexeme that covers the characters from byte `position` on. -/
def covering (token : Token) (text : List Char) (position : Nat) : Lexeme :=
  ⟨token, String.ofList text, position, position + bytes text⟩

theorem magnitude_covering (token : Token) (text : List Char) (position : Nat) :
    (covering token text position).magnitude = Decimal.runValue text := by
  rw [magnitude, covering, String.toList_ofList]

theorem isBlank_of_isDigit {c : Char} (h : c.isDigit = true) : isBlank c = false := by
  simp only [isBlank, Bool.or_eq_false_iff, decide_eq_false_iff_not]
  constructor <;> rintro rfl <;> cases h

section
variable {blanks text rest : List Char} {token : Token}

theorem Cuts.ne_endOfInput (h : Cuts text rest token) : token ≠ .endOfInput := by
  cases h with
  | digits _ _ _ => exact nofun
  | symbol _ _ => exact tokenOf_ne_endOfInput _

theorem Cuts.ne_nil (h : Cuts text rest token) : text ≠ [] := by
  cases h with
  | digits hne _ _ => exact hne
  | symbol _ _ => exact List.cons_ne_nil _ _

theorem Cuts.bytes_pos (h : Cuts text rest token) : 0 < bytes text := by
  obtain ⟨c, text, rfl⟩ := List.exists_cons_of_ne_nil h.ne_nil
  have := c.utf8Size_pos
  rw [bytes_cons]
  omega

theorem takeWhile_isDigit_eq_nil (h : ∀ c ∈ rest.head?, c.isDigit = false) :
    rest.takeWhile Char.isDigit = [] ∧ rest.dropWhile Char.isDigit = rest := by
  cases rest with
  | nil => exact ⟨rfl, rfl⟩
  | cons c rest => simp [h c rfl]

theorem scan_cuts (h : Cuts text rest token) (position : Nat) :
    scan position (text ++ rest) = (covering token text position, rest) := by
  cases h with
  | digits hne hrun hrest =>
    obtain ⟨c, run, rfl⟩ := List.exists_cons_of_ne_nil hne
    have hbytes := bytes_of_isDigit hrun
    rw [List.forall_mem_cons] at hrun
    obtain ⟨htake, hdrop⟩ := takeWhile_isDigit_eq_nil hrest
    rw [List.cons_append, scan, if_neg (by simp [isBlank_of_isDigit hrun.1]), if_pos hrun.1,
      List.takeWhile_append_of_pos hrun.2, List.dropWhile_append_of_pos hrun.2, htake, hdrop, List.append_nil,
      covering, hbytes, ofDigits]
  | @symbol c _ hb hd =>
    rw [List.singleton_append, scan, if_neg (by simp [hb]), if_neg (by simp [hd]), covering, bytes_cons]
    rfl

theorem scan_blanks (h : ∀ c ∈ blanks, isBlank c = true) (position : Nat) (rest : List Char) :
    scan position (blanks ++ rest) = scan (position + bytes blanks) rest := by
  induction blanks generalizing position with
  | nil => rfl
  | cons c blanks ih =>
    rw [List.forall_mem_cons] at h
    rw [List.cons_append, scan, if_pos h.1, ih h.2, bytes_cons, utf8Size_of_isBlank h.1, Nat.add_assoc]

theorem head?_dropWhile_isDigit (chars : List Char) :
    ∀ c ∈ (chars.dropWhile Char.isDigit).head?, c.isDigit = false := by
  intro c hc
  have hhead := List.head?_dropWhile_not Char.isDigit chars
  rw [Option.mem_def.mp hc] at hhead
  simpa using hhead

theorem exists_cuts (chars : List Char) :
    (∀ c ∈ chars, isBlank c = true) ∨
    ∃ blanks text rest token, (∀ c ∈ blanks, isBlank c = true) ∧ Cuts text rest token ∧
      chars = blanks ++ (text ++ rest) := by
  induction chars with
  | nil => exact .inl (List.forall_mem_nil _)
  | cons c chars ih =>
    cases hb : isBlank c with
    | true =>
      rcases ih with hall | ⟨blanks, text, rest, token, hblanks, hcuts, rfl⟩
      · exact .inl (List.forall_mem_cons.mpr ⟨hb, hall⟩)
      · exact .inr ⟨c :: blanks, text, rest, token, List.forall_mem_cons.mpr ⟨hb, hblanks⟩, hcuts, rfl⟩
    | false =>
      refine .inr ⟨[], ?_⟩
      cases hd : c.isDigit with
      | false => exact ⟨[c], chars, tokenOf c, List.forall_mem_nil _, .symbol hb hd, rfl⟩
      | true =>
        have hrun : ∀ d ∈ c :: chars.takeWhile Char.isDigit, d.isDigit = true :=
          List.forall_mem_cons.mpr ⟨hd, List.all_eq_true.mp List.all_takeWhile⟩
        refine ⟨_, _, _, List.forall_mem_nil _,
          .digits (List.cons_ne_nil _ _) hrun (head?_dropWhile_isDigit chars), ?_⟩
        rw [List.nil_append, List.cons_append, List.takeWhile_append_dropWhile]

/-! ## All lexemes -/

theorem scanAll_nil (position : Nat) : scanAll position [] = [endAt position] := by
  rw [scanAll]
  rfl

theorem scanAll_cuts (h : Cuts text rest token) (position : Nat) :
    scanAll position (text ++ rest) = covering token text position :: scanAll (position + bytes text) rest := by
  have hne : (covering token text position).token ≠ .endOfInput := h.ne_endOfInput
  rw [scanAll, scan_cuts h, dif_neg hne]
  rfl

theorem scanAll_blanks (h : ∀ c ∈ blanks, isBlank c = true) (position : Nat) (rest : List Char) :
    scanAll position (blanks ++ rest) = scanAll (position + bytes blanks) rest := by
  rw [scanAll, scan_blanks h]
  conv => rhs; rw [scanAll]

theorem scanAll_of_blank (h : ∀ c ∈ blanks, isBlank c = true) (position : Nat) :
    scanAll position blanks = [endAt (position + bytes blanks)] := by
  have hscan := scanAll_blanks h position []
  rwa [List.append_nil, scanAll_nil] at hscan

/-- Does nothing in `more` lengthen a number at the end of `chars`? -/
def Apart (chars more : List Char) : Prop :=
  ∀ c ∈ chars.getLast?, c.isDigit = true → ∀ d ∈ more.head?, d.isDigit = false

theorem Cuts.append {more : List Char} (h : Cuts text rest token) (hmore : Apart (text ++ rest) more) :
    Cuts text (rest ++ more) token := by
  cases h with
  | symbol hb hd => exact .symbol hb hd
  | digits hne hrun hrest =>
    refine .digits hne hrun fun d hd => ?_
    cases rest with
    | cons c rest => exact hrest d hd
    | nil =>
      rw [List.append_nil] at hmore
      exact hmore _ (List.getLast?_eq_some_getLast hne) (hrun _ (List.getLast_mem hne)) d hd

theorem Apart.of_append {first chars more : List Char} (h : Apart (first ++ chars) more) : Apart chars more := by
  intro c hc
  refine h c ?_
  rw [List.getLast?_append, Option.mem_def.mp hc]
  rfl

theorem Apart.append_blanks {chars more : List Char} (h : Apart chars more)
    (hblanks : ∀ c ∈ blanks, isBlank c = true) : Apart chars (blanks ++ more) := by
  intro c hc hdigit
  cases blanks with
  | nil => exact h c hc hdigit
  | cons b blanks =>
    intro d hd
    cases hd
    rw [← Bool.not_eq_true]
    intro hb
    have hblank := hblanks b List.mem_cons_self
    rw [isBlank_of_isDigit hb] at hblank
    cases hblank

/-- Of two texts together the lexemes are those of the first but for its end, and then those of
the second. -/
theorem scanAll_append {chars more : List Char} (h : Apart chars more) (position : Nat) :
    ∃ ys, scanAll position chars = ys ++ [endAt (position + bytes chars)] ∧
      scanAll position (chars ++ more) = ys ++ scanAll (position + bytes chars) more := by
  induction hlength : chars.length using Nat.strongRecOn generalizing chars position with
  | ind length ih =>
    rcases exists_cuts chars with hblanks | ⟨blanks, text, rest, token, hblanks, hcuts, rfl⟩
    · exact ⟨[], scanAll_of_blank hblanks position, scanAll_blanks hblanks position more⟩
    · have hshorter : rest.length < length := by
        have htext := List.length_pos_iff.mpr hcuts.ne_nil
        simp only [List.length_append] at hlength
        omega
      have hrest : Apart (text ++ rest) more := h.of_append
      obtain ⟨ys, hfirst, hboth⟩ := ih _ hshorter hrest.of_append (position + bytes blanks + bytes text) rfl
      have hbytes : position + bytes (blanks ++ (text ++ rest)) =
          position + bytes blanks + bytes text + bytes rest := by
        rw [bytes_append, bytes_append]
        omega
      refine ⟨covering token text (position + bytes blanks) :: ys, ?_, ?_⟩
      · rw [scanAll_blanks hblanks, scanAll_cuts hcuts, hfirst, hbytes, List.cons_append]
      · rw [List.append_assoc, List.append_assoc, scanAll_blanks hblanks, scanAll_cuts (hcuts.append hrest), hboth,
          hbytes, List.cons_append]

/-! ## The values of numbers -/

theorem Cuts.eq_ofNat {v : Binary64} (h : Cuts text rest token) (hv : token = .number v) :
    v = Binary64.ofNat (Decimal.runValue text) := by
  cases h with
  | digits _ _ _ => exact (Token.number.inj hv).symm
  | symbol _ _ => exact absurd hv (tokenOf_ne_number _ v)

theorem eq_ofNat_of_scan {position : Nat} {chars : List Char} {v : Binary64}
    (h : (scan position chars).1.token = .number v) : v = Binary64.ofNat (scan position chars).1.magnitude := by
  rcases exists_cuts chars with hblanks | ⟨blanks, text, rest, token, hblanks, hcuts, rfl⟩
  · rw [← List.append_nil chars, scan_blanks hblanks] at h
    cases h
  · rw [scan_blanks hblanks, scan_cuts hcuts] at h ⊢
    rw [magnitude_covering]
    exact hcuts.eq_ofNat h

theorem eq_ofNat_of_mem_scanAll (position : Nat) (chars : List Char) :
    ∀ x ∈ scanAll position chars, ∀ v, x.token = .number v → v = Binary64.ofNat x.magnitude := by
  fun_induction scanAll position chars with
  | case1 position chars next h => exact List.forall_mem_singleton.mpr fun v => eq_ofNat_of_scan
  | case2 position chars next h ih => exact List.forall_mem_cons.mpr ⟨fun v => eq_ofNat_of_scan, ih⟩

end

end Lexeme

theorem lexemes_append {text more : String} (h : Lexeme.Apart text.toList more.toList) :
    lexemes (text ++ more) = words text ++ Lexeme.scanAll text.utf8ByteSize more.toList := by
  obtain ⟨ys, hfirst, hboth⟩ := Lexeme.scanAll_append h 0
  have hwords : words text = ys := by rw [words, lexemes, hfirst, List.dropLast_concat]
  rw [lexemes, String.toList_append, hboth, hwords, Nat.zero_add, Lexeme.bytes, String.ofList_toList]

end Calculator
