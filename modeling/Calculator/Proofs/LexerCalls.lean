import Calculator.Proofs.Spans
import Mathlib.Data.List.Basic

/-!
# Calls of the lexer

One call leaves blanks and one lexeme behind it, or nothing but the end of the
source. Hence the lexemes that repeated calls give tile the source: they stand in
it one behind the other, with blanks alone between them, and the end of input
comes with one of the first calls and with every later one.
-/

namespace Calculator

/-- `text` stands in the source from byte `start` up to byte `stop`, both between characters. -/
def Located (source text : String) (start stop : Nat) : Prop :=
  ∃ before after, source = before ++ text ++ after ∧ start = before.utf8ByteSize ∧ stop = start + text.utf8ByteSize

/-- `text` is a run of digits from byte `start` on, with no digit on either side. -/
def MaximalRun (source text : String) (start : Nat) : Prop :=
  (∀ c ∈ text.toList, c.isDigit = true) ∧
    ∃ before after : String, source = before ++ text ++ after ∧ start = before.utf8ByteSize ∧
      (∀ c ∈ before.toList.getLast?, c.isDigit = false) ∧ ∀ c ∈ after.toList.head?, c.isDigit = false

namespace Lexeme

/-- The characters of expressions. -/
def alphabet : List Char :=
  [' ', '\t', '+', '-', '*', '/', '(', ')', '0', '1', '2', '3', '4', '5', '6', '7', '8', '9']

/-- The text of a lexeme is all that its token stands for. -/
def Covers (source : String) (x : Lexeme) : Prop :=
  match x.token with
  | .plus => x.text = "+"
  | .minus => x.text = "-"
  | .star => x.text = "*"
  | .slash => x.text = "/"
  | .openParen => x.text = "("
  | .closeParen => x.text = ")"
  | .number v => MaximalRun source x.text x.start ∧ v = .ofNat x.magnitude
  | .illegal c => x.text = String.singleton c ∧ c ∉ alphabet
  | .endOfInput => x = endAt source.utf8ByteSize

/-- What the next call gives: `y` stands in the source behind `x`, and only blanks between them. -/
structure Follows (source : String) (x y : Lexeme) : Prop where
  blank : ∃ gap, (∀ c ∈ gap.toList, isBlank c = true) ∧ Located source gap x.stop y.start
  slice : Located source y.text y.start y.stop
  nonempty : y.token ≠ .endOfInput → y.start < y.stop
  covers : y.Covers source

section
variable {source : String} {before text rest : List Char} {c : Char} {token : Token}

theorem located_of_toList (h : source.toList = before ++ (text ++ rest)) :
    Located source (String.ofList text) (bytes before) (bytes before + bytes text) := by
  refine ⟨String.ofList before, String.ofList rest, ?_, rfl, rfl⟩
  rw [← String.ofList_append, ← String.ofList_append, List.append_assoc, ← h, String.ofList_toList]

theorem located_nil (h : source.toList = before ++ rest) : Located source "" (bytes before) (bytes before) := by
  rw [← List.nil_append rest] at h
  exact located_of_toList h

theorem legal_of_mem_alphabet :
    ∀ d ∈ alphabet, (isBlank d || d.isDigit || decide (tokenOf d ≠ .illegal d)) = true :=
  List.all_eq_true.mp (by decide)

theorem notMem_alphabet (hb : isBlank c = false) (hd : c.isDigit = false) (hc : tokenOf c = .illegal c) :
    c ∉ alphabet := by
  intro hmem
  have hlegal := legal_of_mem_alphabet c hmem
  rw [hb, hd, hc] at hlegal
  simp at hlegal

theorem covers_symbol (hb : isBlank c = false) (hd : c.isDigit = false) (position : Nat) :
    (covering (tokenOf c) [c] position).Covers source := by
  unfold covering Covers
  by_cases hplus : c = '+'
  · subst hplus; rfl
  by_cases hminus : c = '-'
  · subst hminus; rfl
  by_cases hstar : c = '*'
  · subst hstar; rfl
  by_cases hslash : c = '/'
  · subst hslash; rfl
  by_cases hopen : c = '('
  · subst hopen; rfl
  by_cases hclose : c = ')'
  · subst hclose; rfl
  have htoken : tokenOf c = .illegal c := by simp [tokenOf, hplus, hminus, hstar, hslash, hopen, hclose]
  rw [htoken]
  exact ⟨rfl, notMem_alphabet hb hd htoken⟩

theorem Cuts.covers (h : Cuts text rest token) (hsplit : source.toList = before ++ (text ++ rest))
    (hbefore : Apart before (text ++ rest)) : (covering token text (bytes before)).Covers source := by
  cases h with
  | symbol hb hd => exact covers_symbol hb hd _
  | digits hne hrun hrest =>
    refine ⟨⟨?_, String.ofList before, String.ofList rest, ?_, rfl, ?_, ?_⟩, ?_⟩
    · rwa [covering, String.toList_ofList]
    · rw [covering, ← String.ofList_append, ← String.ofList_append, List.append_assoc, ← hsplit, String.ofList_toList]
    · rw [String.toList_ofList]
      intro c hc
      obtain ⟨d, run, rfl⟩ := List.exists_cons_of_ne_nil hne
      rw [← Bool.not_eq_true]
      intro hdigit
      have hstop := hbefore c hc hdigit d rfl
      exact absurd (hstop.symm.trans (hrun d List.mem_cons_self)) Bool.false_ne_true
    · rwa [String.toList_ofList]
    · rw [magnitude_covering]

/-- A lexeme that ends with a digit takes all digits there are. -/
theorem Cuts.munches (h : Cuts text rest token) : Apart text rest := by
  intro c hc hdigit
  cases h with
  | digits _ _ hrest => exact hrest
  | symbol _ hd =>
    rw [List.getLast?_singleton] at hc
    cases hc
    exact absurd (hd.symm.trans hdigit) Bool.false_ne_true

end

end Lexeme

namespace Lexer

open Lexeme

/-- The lexer after so many calls. -/
def after (lexer : Lexer) : Nat → Lexer
  | 0 => lexer
  | k + 1 => (lexer.after k).next

/-- The lexeme that call `k` gives; before the first call it is empty. -/
def given (source : String) (k : Nat) : Lexeme := ((ofSource source).after k).latest

theorem after_succ (lexer : Lexer) (k : Nat) : lexer.after (k + 1) = lexer.next.after k := by
  induction k with
  | zero => rfl
  | succ k ih => exact congrArg next ih

/-! ## One call -/

theorem next_cases (lexer : Lexer) :
    ((∀ c ∈ lexer.rest, isBlank c = true) ∧ lexer.next = ⟨endAt (lexer.latest.stop + bytes lexer.rest), []⟩) ∨
    ∃ blanks text rest token, (∀ c ∈ blanks, isBlank c = true) ∧ Cuts text rest token ∧
      lexer.rest = blanks ++ (text ++ rest) ∧
      lexer.next = ⟨covering token text (lexer.latest.stop + bytes blanks), rest⟩ := by
  rcases exists_cuts lexer.rest with hblanks | ⟨blanks, text, rest, token, hblanks, hcuts, hrest⟩
  · refine .inl ⟨hblanks, ?_⟩
    have hscan := scan_blanks hblanks lexer.latest.stop []
    rw [List.append_nil] at hscan
    rw [next, hscan]
    rfl
  · refine .inr ⟨blanks, text, rest, token, hblanks, hcuts, hrest, ?_⟩
    rw [next, hrest, scan_blanks hblanks, scan_cuts hcuts]

/-- The characters `read` of the source are behind the lexer, and no run of digits goes on before it. -/
structure Behind (source : String) (lexer : Lexer) (read : List Char) : Prop where
  split : source.toList = read ++ lexer.rest
  stop : lexer.latest.stop = bytes read
  munched : ∀ c ∈ read.getLast?, c.isDigit = true → ∀ d ∈ lexer.rest.head?, d.isDigit = false

theorem behind_ofSource (source : String) : Behind source (ofSource source) [] :=
  ⟨rfl, rfl, fun _ hc => (Option.not_mem_none _ hc).elim⟩

theorem Behind.next {source : String} {lexer : Lexer} {read : List Char} (h : Behind source lexer read) :
    (∃ read', Behind source lexer.next read') ∧ Follows source lexer.latest lexer.next.latest := by
  have hstop := h.stop
  have hsplit := h.split
  rcases lexer.next_cases with ⟨hblanks, hnext⟩ | ⟨blanks, text, rest, token, hblanks, hcuts, hrest, hnext⟩
  · have hsource : source.toList = read ++ (lexer.rest ++ []) := by rw [List.append_nil, hsplit]
    have hend : lexer.latest.stop + bytes lexer.rest = source.utf8ByteSize := by
      rw [hstop, ← bytes_append, ← hsplit, bytes, String.ofList_toList]
    have hgap := located_of_toList hsource
    rw [hnext, hend]
    rw [← hstop, hend] at hgap
    refine ⟨⟨source.toList, ⟨by rw [List.append_nil], ?_, fun _ _ _ _ hd => (Option.not_mem_none _ hd).elim⟩⟩, ⟨_, ?_, hgap⟩, ?_,
      fun hne => absurd rfl hne, rfl⟩
    · rw [bytes, String.ofList_toList]
      rfl
    · rwa [String.toList_ofList]
    · have hlast : Located source "" (bytes source.toList) (bytes source.toList) :=
        located_nil (List.append_nil _).symm
      rwa [bytes, String.ofList_toList] at hlast
  · have hstart : lexer.latest.stop + bytes blanks = bytes (read ++ blanks) := by rw [hstop, bytes_append]
    have hgap : source.toList = read ++ (blanks ++ (text ++ rest)) := by rw [hsplit, hrest]
    have htext : source.toList = read ++ blanks ++ (text ++ rest) := by rw [hgap, List.append_assoc]
    -- a digit before the lexeme is no blank, so it is the last character read before
    have hbefore : ∀ c ∈ (read ++ blanks).getLast?, c.isDigit = true →
        ∀ d ∈ (text ++ rest).head?, d.isDigit = false := by
      intro c hc hdigit
      rw [List.getLast?_append] at hc
      cases hlast : blanks.getLast? with
      | none =>
        have hnone : blanks = [] := List.getLast?_eq_none_iff.mp hlast
        rw [hlast, Option.none_or] at hc
        rw [hnone] at hrest
        exact hrest ▸ h.munched c hc hdigit
      | some b =>
        rw [hlast, Option.some_or] at hc
        cases hc
        have hblank := hblanks c (List.mem_of_getLast? hlast)
        exact absurd ((isBlank_of_isDigit hdigit).symm.trans hblank) Bool.false_ne_true
    rw [hnext, hstart]
    refine ⟨⟨read ++ blanks ++ text, ?_, ?_, ?_⟩, ⟨String.ofList blanks, ?_, ?_⟩, located_of_toList htext,
      fun _ => Nat.lt_add_of_pos_right hcuts.bytes_pos, hcuts.covers htext hbefore⟩
    · rw [htext, ← List.append_assoc]
    · rw [bytes_append _ text]
      rfl
    · rw [List.getLast?_append_of_ne_nil _ hcuts.ne_nil]
      exact hcuts.munches
    · rwa [String.toList_ofList]
    · have hlocated := located_of_toList hgap
      rw [← bytes_append] at hlocated
      rw [hstop]
      exact hlocated

/-! ## Many calls -/

theorem exists_behind (source : String) (k : Nat) : ∃ read, Behind source ((ofSource source).after k) read := by
  induction k with
  | zero => exact ⟨[], behind_ofSource source⟩
  | succ k ih =>
    obtain ⟨read, hread⟩ := ih
    exact hread.next.1

theorem follows_given (source : String) (k : Nat) : Follows source (given source k) (given source (k + 1)) := by
  obtain ⟨read, hread⟩ := exists_behind source k
  exact hread.next.2

/-- Nothing is left behind the end of input, so a further call gives it again. -/
theorem next_next_of_endOfInput {lexer : Lexer} (h : lexer.next.latest.token = .endOfInput) :
    lexer.next.next = lexer.next := by
  rcases lexer.next_cases with ⟨_, hnext⟩ | ⟨_, _, _, _, _, hcuts, _, hnext⟩
  · rw [hnext]
    rfl
  · rw [hnext] at h
    exact absurd h hcuts.ne_endOfInput

theorem after_of_endOfInput {lexer : Lexer} (h : lexer.next.latest.token = .endOfInput) (k : Nat) :
    lexer.next.after k = lexer.next := by
  induction k with
  | zero => rfl
  | succ k ih => rw [after, ih, next_next_of_endOfInput h]

theorem scanAll_latest (lexer : Lexer) :
    scanAll lexer.latest.stop lexer.rest =
      if lexer.next.latest.token = .endOfInput then [lexer.next.latest]
      else lexer.next.latest :: scanAll lexer.next.latest.stop lexer.next.rest := by
  rw [scanAll]
  rfl

/-- The calls give the lexemes of the source one by one, the end of input last. -/
theorem after_of_scanAll {xs : List Lexeme} (hstream : Stream xs) (lexer : Lexer)
    (h : scanAll lexer.latest.stop lexer.rest = xs) :
    (∀ k, k + 1 < xs.length → (lexer.after (k + 1)).latest.token ≠ .endOfInput) ∧
    (∀ k, xs.length ≤ k → (lexer.after k).latest.token = .endOfInput) ∧
    xs = (List.range xs.length).map fun k => (lexer.after (k + 1)).latest := by
  rw [scanAll_latest] at h
  induction hstream generalizing lexer with
  | @last x hx =>
    split at h
    · next hlast =>
      cases h
      refine ⟨fun k hk => absurd (Nat.succ_lt_succ_iff.mp hk) (Nat.not_lt_zero k), fun k hk => ?_, rfl⟩
      obtain ⟨k, rfl⟩ := Nat.exists_eq_add_of_le' hk
      rwa [List.length_singleton, after_succ, after_of_endOfInput hlast]
    · next hne => exact absurd ((List.cons.inj h).1 ▸ hx) hne
  | @cons x xs hx _ hxs ih =>
    split at h
    · next hlast => exact absurd ((List.cons.inj h).1 ▸ hlast) hx
    · obtain ⟨rfl, hrest⟩ := List.cons.inj h
      rw [scanAll_latest] at hrest
      obtain ⟨hinside, hended, hlist⟩ := ih lexer.next hrest
      refine ⟨fun k hk => ?_, fun k hk => ?_, ?_⟩
      · rw [after_succ]
        cases k with
        | zero => exact hx
        | succ k => exact hinside k (Nat.lt_of_succ_lt_succ hk)
      · obtain ⟨k, rfl⟩ := Nat.exists_eq_add_of_le' (Nat.le_trans (Nat.le_add_left 1 _) hk)
        rw [after_succ]
        exact hended k (Nat.le_of_succ_le_succ hk)
      · rw [List.length_cons, List.range_succ_eq_map, List.map_cons, List.map_map]
        refine congrArg (lexer.next.latest :: ·) (hlist.trans (List.map_congr_left fun k _ => ?_))
        exact congrArg latest (after_succ lexer (k + 1)).symm

/-- Every lexeme of the source is given by some call. -/
theorem exists_follows {source : String} {x : Lexeme} (h : x ∈ lexemes source) : ∃ y, Follows source y x := by
  obtain ⟨_, _, hlist⟩ := after_of_scanAll (stream_lexemes source) (ofSource source) rfl
  rw [show lexemes source = _ from hlist] at h
  obtain ⟨k, _, rfl⟩ := List.mem_map.mp h
  exact ⟨given source k, follows_given source k⟩

end Lexer

/-! ## The tiling -/

open Lexeme

/-- The lexemes `latest 1`, `latest 2`, and so on tile the source, and the end of input is at `calls` and later. -/
structure Tiled (source : String) (latest : Nat → Lexeme) (calls : Nat) : Prop where
  pos : 0 < calls
  few : calls ≤ source.utf8ByteSize + 1
  started : latest 0 = endAt 0
  inside : ∀ k, 0 < k → k < calls → (latest k).token ≠ .endOfInput
  ended : ∀ k, calls ≤ k → latest k = endAt source.utf8ByteSize
  slice : ∀ k, Located source (latest k).text (latest k).start (latest k).stop
  nonempty : ∀ k, 0 < k → k < calls → (latest k).start < (latest k).stop
  ordered : ∀ j k, j < k → (latest j).stop ≤ (latest k).start
  blank : ∀ k, ∃ gap, (∀ c ∈ gap.toList, isBlank c = true) ∧
    Located source gap (latest k).stop (latest (k + 1)).start
  covers : ∀ k, 0 < k → (latest k).Covers source

theorem Located.le {source text : String} {start stop : Nat} (h : Located source text start stop) :
    start ≤ stop := by
  obtain ⟨_, _, _, _, rfl⟩ := h
  exact Nat.le_add_right _ _

theorem stop_le_start {latest : Nat → Lexeme} (hspan : ∀ k, (latest k).start ≤ (latest k).stop)
    (hgap : ∀ k, (latest k).stop ≤ (latest (k + 1)).start) :
    ∀ j k, j < k → (latest j).stop ≤ (latest k).start := by
  intro j k hjk
  induction hjk with
  | refl => exact hgap j
  | @step k _ ih => exact Nat.le_trans ih (Nat.le_trans (hspan k) (hgap k))

/-- Repeated calls of the lexer tile the source, and give its lexemes in order. -/
theorem lexer_tiles (source : String) :
    ∃ calls, Tiled source (Lexer.given source) calls ∧
      lexemes source = (List.range calls).map fun k => Lexer.given source (k + 1) := by
  have hfollows := Lexer.follows_given source
  have hlength := (spans_lexemes source).length_le
  obtain ⟨y, ys, hcons⟩ := (stream_lexemes source).exists_cons
  have hpos : 0 < (lexemes source).length := by rw [hcons]; exact Nat.succ_pos _
  obtain ⟨hinside, hended, hlist⟩ := Lexer.after_of_scanAll (stream_lexemes source) (Lexer.ofSource source) rfl
  have hslice : ∀ k, Located source (Lexer.given source k).text (Lexer.given source k).start
      (Lexer.given source k).stop
    | 0 => located_nil (List.nil_append _).symm
    | k + 1 => (hfollows k).slice
  have hcovers : ∀ k, 0 < k → (Lexer.given source k).Covers source
    | k + 1, _ => (hfollows k).covers
  refine ⟨(lexemes source).length, ?_, hlist⟩
  constructor
  case pos => exact hpos
  case few => omega
  case started => rfl
  case inside =>
    intro k hk
    obtain ⟨k, rfl⟩ := Nat.exists_eq_add_of_le' hk
    exact hinside k
  case ended =>
    intro k hk
    have hcover := hcovers k (Nat.lt_of_lt_of_le hpos hk)
    rwa [Covers, Lexer.given, hended k hk] at hcover
  case slice => exact hslice
  case nonempty =>
    intro k hk hcalls
    obtain ⟨k, rfl⟩ := Nat.exists_eq_add_of_le' hk
    exact (hfollows k).nonempty (hinside k hcalls)
  case ordered =>
    refine stop_le_start (fun k => (hslice k).le) fun k => ?_
    obtain ⟨_, _, hgap⟩ := (hfollows k).blank
    exact hgap.le
  case blank => exact fun k => (hfollows k).blank
  case covers => exact hcovers

end Calculator
