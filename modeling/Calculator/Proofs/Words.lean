import Calculator.Text.Words
import Mathlib.Data.List.TakeWhile

/-!
# Words and the white space around them

`Separated chars runs` says that the characters are the words `runs` in order,
each two with white space between them, and any amount of it before and after.
Cutting at white space finds these words and no others.
-/

namespace Calculator.Text

def IsWord (run : List Char) : Prop := run ≠ [] ∧ run.any isWhiteSpace = false

instance (run : List Char) : Decidable (IsWord run) :=
  inferInstanceAs (Decidable (_ ∧ _))

inductive Separated : List Char → List (List Char) → Prop
  | nil : Separated [] []
  | space {c : Char} {rest : List Char} {runs : List (List Char)} :
      isWhiteSpace c = true → Separated rest runs → Separated (c :: rest) runs
  | word {run rest : List Char} {runs : List (List Char)} :
      IsWord run → (∀ c ∈ rest.head?, isWhiteSpace c = true) → Separated rest runs →
      Separated (run ++ rest) (run :: runs)

/-- The text is made of these words and white space. -/
def Spaced (text : String) (words : List String) : Prop := Separated text.toList (words.map String.toList)

section
variable {chars run rest : List Char} {runs : List (List Char)}

theorem wordChars_append (h : IsWord run) (hrest : ∀ c ∈ rest.head?, isWhiteSpace c = true) :
    wordChars (run ++ rest) = run :: wordChars rest := by
  obtain ⟨c, run, rfl⟩ := List.exists_cons_of_ne_nil h.1
  have hinside : ∀ d ∈ c :: run, (!isWhiteSpace d) = true := by simpa using h.2
  obtain ⟨hc, hrun⟩ := List.forall_mem_cons.mp hinside
  have hnone : rest.takeWhile (fun d => !isWhiteSpace d) = [] ∧ rest.dropWhile (fun d => !isWhiteSpace d) = rest := by
    cases rest with
    | nil => exact ⟨rfl, rfl⟩
    | cons d rest => simp [hrest d rfl]
  rw [List.cons_append, wordChars, if_neg (by simpa using hc), List.takeWhile_append_of_pos hrun, hnone.1,
    List.append_nil, List.dropWhile_append_of_pos hrun, hnone.2]

theorem Separated.wordChars_eq (h : Separated chars runs) : wordChars chars = runs := by
  induction h with
  | nil => rw [wordChars]
  | space hc _ ih => rw [wordChars, if_pos hc, ih]
  | word hrun hrest _ ih => rw [wordChars_append hrun hrest, ih]

theorem separated_wordChars (chars : List Char) : Separated chars (wordChars chars) := by
  fun_induction wordChars chars with
  | case1 => exact .nil
  | case2 c rest hc ih => exact .space hc ih
  | case3 c rest hc ih =>
    have hrun : IsWord (c :: rest.takeWhile fun d => !isWhiteSpace d) := by
      have hall := List.all_eq_true.mp (List.all_takeWhile (p := fun d => !isWhiteSpace d) (l := rest))
      exact ⟨List.cons_ne_nil _ _, by simpa [hc] using hall⟩
    have hrest : ∀ d ∈ (rest.dropWhile fun d => !isWhiteSpace d).head?, isWhiteSpace d = true := by
      intro d hd
      have hhead := List.head?_dropWhile_not (fun d => !isWhiteSpace d) rest
      rw [Option.mem_def.mp hd] at hhead
      simpa using hhead
    have hword := Separated.word hrun hrest ih
    rwa [List.cons_append, List.takeWhile_append_dropWhile] at hword

theorem separated_intercalate (h : ∀ run ∈ runs, IsWord run) : Separated ([' '].intercalate runs) runs := by
  induction runs with
  | nil => exact .nil
  | cons run runs ih =>
    obtain ⟨hrun, hruns⟩ := List.forall_mem_cons.mp h
    cases runs with
    | nil =>
      have hword : Separated (run ++ []) [run] := .word hrun (fun _ hc => (Option.not_mem_none _ hc).elim) .nil
      simpa using hword
    | cons next runs =>
      rw [List.intercalate_cons_cons, List.append_assoc]
      exact .word hrun (fun c hc => Option.some.inj hc ▸ rfl) (.space rfl (ih hruns))

end

theorem words_eq_iff_spaced {text : String} {words : List String} : Text.words text = words ↔ Spaced text words := by
  have hback : ∀ runs : List (List Char), (runs.map String.ofList).map String.toList = runs := fun runs => by
    simp [Function.comp_def]
  constructor
  · rintro rfl
    rw [Spaced, Text.words, hback]
    exact separated_wordChars _
  · intro h
    rw [Text.words, h.wordChars_eq]
    simp [Function.comp_def]

theorem words_intercalate {words : List String} (h : ∀ word ∈ words, IsWord word.toList) :
    Text.words (" ".intercalate words) = words := by
  have hruns : ∀ run ∈ words.map String.toList, IsWord run := by
    simpa using h
  have hspace : " ".toList = [' '] := by decide
  rw [words_eq_iff_spaced, Spaced, String.toList_intercalate, hspace]
  exact separated_intercalate hruns

end Calculator.Text
