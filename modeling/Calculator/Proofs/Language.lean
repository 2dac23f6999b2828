import Calculator.Proofs.Phrase
import Calculator.Proofs.Verdict

/-!
# The language of the parser

The parser accepts what the reference grammar derives, with the tree it
derives. Soundness is what the productions read. For completeness the tree needs
no tracking: the scan passes over every derived phrase, so the parser returns
something, and by soundness and unambiguity that is the derived tree.
-/

namespace Calculator

namespace Parse

/-! ## Phrases are legal -/

section
variable {g : Grouping} {l : Level} {ts : List Token} {t : Expr}

theorem Derives.not_illegal (h : Derives g l ts t) : ∀ x ∈ ts, ∀ character, x ≠ .illegal character := by
  have hoperator : ∀ {x : Token} {op : BinaryOp}, x.binaryOp? = some op → ∀ character, x ≠ .illegal character := by
    rintro x op hx character rfl
    cases hx
  induction h with
  | operand _ _ ih => exact ih
  | right _ hx _ _ _ iha ihb =>
    exact List.forall_mem_append.mpr ⟨iha, List.forall_mem_cons.mpr ⟨hoperator hx, ihb⟩⟩
  | left _ hx _ _ _ iha ihb =>
    exact List.forall_mem_append.mpr ⟨iha, List.forall_mem_cons.mpr ⟨hoperator hx, ihb⟩⟩
  | number => simp
  | group _ ih =>
    have hclose : ∀ character, Token.closeParen ≠ .illegal character := fun _ => nofun
    have hopen : ∀ character, Token.openParen ≠ .illegal character := fun _ => nofun
    exact List.forall_mem_append.mpr
      ⟨List.forall_mem_cons.mpr ⟨hopen, ih⟩, List.forall_mem_singleton.mpr hclose⟩
  | @sign ts x s t hx _ ih =>
    refine List.forall_mem_cons.mpr ⟨?_, ih⟩
    rintro character rfl
    cases hx

end

/-! ## The scan passes over phrases -/

section
variable {lenient : Bool} {opened : Nat} {x : Lexeme} {xs : List Lexeme}

theorem scan_number {v : Binary64} (hx : x.token = .number v) (hr : x.Readable) :
    scan lenient .operand opened (x :: xs) = scan lenient .operator opened xs := by
  rw [scan_cons, classify_number hx (hr.2 v hx)]

theorem scan_openParen (hx : x.token = .openParen) :
    scan lenient .operand opened (x :: xs) = scan lenient .operand (opened + 1) xs := by
  rw [scan_cons, classify_openParen hx]

theorem scan_sign {s : Sign} (hx : x.token.sign? = some s) :
    scan lenient .operand opened (x :: xs) = scan lenient .operand opened xs := by
  rw [scan_cons, classify_sign hx]

theorem scan_operator {op : BinaryOp} (hx : x.token.binaryOp? = some op) :
    scan lenient .operator opened (x :: xs) = scan lenient .operand opened xs := by
  rw [scan_cons, classify_operator hx]

theorem scan_closeParen (hx : x.token = .closeParen) :
    scan lenient .operator (opened + 1) (x :: xs) = scan lenient .operator opened xs := by
  rw [scan_cons, classify_closeParen hx, Nat.add_sub_cancel]

theorem scan_endOfInput (hx : x.token = .endOfInput) : scan lenient .operator 0 (x :: xs) = .ok () := by
  rw [scan_cons, classify_end hx]

end

/-- The scan reads the tokens as one operand, whatever stands behind them. -/
def Passes (ts : List Token) : Prop :=
  ∀ lenient opened xs rest, xs.map Lexeme.token = ts → (∀ x ∈ xs, x.Readable) →
    scan lenient .operand opened (xs ++ rest) = scan lenient .operator opened rest

section
variable {ts us : List Token} {y : Token}

theorem Passes.chain {op : BinaryOp} (ha : Passes ts) (hy : y.binaryOp? = some op) (hb : Passes us) :
    Passes (ts ++ y :: us) := by
  intro lenient opened xs rest hts hxs
  obtain ⟨as, zs, rfl, has, hzs⟩ := List.map_eq_append_iff.mp hts
  obtain ⟨z, bs, rfl, hz, hbs⟩ := List.map_eq_cons_iff.mp hzs
  rw [List.forall_mem_append, List.forall_mem_cons] at hxs
  have hleft := ha lenient opened as (z :: bs ++ rest) has hxs.1
  have hright := hb lenient opened bs rest hbs hxs.2.2
  rw [List.append_assoc, hleft, List.cons_append, scan_operator (hz ▸ hy), hright]

theorem passes_number (v : Binary64) : Passes [.number v] := by
  intro lenient opened xs rest hts hxs
  obtain ⟨z, zs, rfl, hz, hzs⟩ := List.map_eq_cons_iff.mp hts
  obtain rfl := List.map_eq_nil_iff.mp hzs
  rw [List.singleton_append, scan_number hz (hxs z List.mem_cons_self)]

theorem Passes.group (h : Passes ts) : Passes (.openParen :: ts ++ [.closeParen]) := by
  intro lenient opened xs rest hts hxs
  obtain ⟨z, zs, rfl, hz, hzs⟩ := List.map_eq_cons_iff.mp hts
  obtain ⟨ys, ws, rfl, hys, hws⟩ := List.map_eq_append_iff.mp hzs
  obtain ⟨w, ws, rfl, hw, hws⟩ := List.map_eq_cons_iff.mp hws
  obtain rfl := List.map_eq_nil_iff.mp hws
  rw [List.forall_mem_cons, List.forall_mem_append] at hxs
  have hinner := h lenient (opened + 1) ys ([w] ++ rest) hys hxs.2.1
  rw [List.cons_append, scan_openParen hz, List.append_assoc, hinner, List.singleton_append, scan_closeParen hw]

theorem Passes.sign {s : Sign} (hy : y.sign? = some s) (h : Passes ts) : Passes (y :: ts) := by
  intro lenient opened xs rest hts hxs
  obtain ⟨z, zs, rfl, hz, hzs⟩ := List.map_eq_cons_iff.mp hts
  rw [List.forall_mem_cons] at hxs
  rw [List.cons_append, scan_sign (hz ▸ hy), h lenient opened zs rest hzs hxs.2]

theorem Derives.passes {g : Grouping} {l : Level} {t : Expr} (h : Derives g l ts t) : Passes ts := by
  induction h with
  | operand _ _ ih => exact ih
  | right _ hx _ _ _ iha ihb => exact iha.chain hx ihb
  | left _ hx _ _ _ iha ihb => exact iha.chain hx ihb
  | number => exact passes_number _
  | group _ ih => exact ih.group
  | sign hx _ ih => exact ih.sign hx

end

/-! ## Soundness and completeness -/

section
variable {source : String} {o : Options} {t : Expr}

theorem derives_of_parse (hstrict : o.allowTrailing = false) (h : parse source o = .ok t) :
    (∀ x ∈ words source, x.Readable) ∧
      Derives o.grouping .expression ((words source).map Lexeme.token) t := by
  obtain ⟨d, hrun⟩ := (parse_eq_ok_iff source o).mp h
  obtain ⟨⟨xs, hsplit, hderives, hexact⟩, hstream, hend⟩ := run_reads hrun
  have hlast : d.current.token = .endOfInput := by simpa [hstrict] using hend
  have hnothing : d.unread = [] := hstream.tail_eq_nil hlast
  have hwords : words source = xs := by
    rw [words, hsplit, Cursor.ahead, hnothing, List.dropLast_concat]
  obtain ⟨_, _, _, hfaithful⟩ := lexemes_eq_concat source
  rw [hwords] at hfaithful ⊢
  refine ⟨fun x hx => ⟨?_, ?_⟩, hderives⟩
  · exact hderives.not_illegal x.token (List.mem_map_of_mem hx)
  · exact fun v hv => (hfaithful x hx v hv).mp (hexact x hx v hv)

theorem exists_parse_of_derives (hlimit : WithinLimit source o) (hlegal : ∀ x ∈ words source, x.Readable)
    (h : Derives o.grouping .expression ((words source).map Lexeme.token) t) :
    ∃ u, parse source o = .ok u := by
  obtain ⟨y, hsplit, hy, _⟩ := lexemes_eq_concat source
  refine exists_parse_of_scan hlimit ?_
  rw [hsplit, h.passes o.allowTrailing 0 _ [y] rfl hlegal, scan_endOfInput hy]

/-- A scan that reaches the end of input tells that the parser does, and what
the grammar derives up to there has one tree. -/
theorem parse_eq_ok_of_words
    (hscan : ∀ y : Lexeme, y.token = .endOfInput → ∃ g,
      scanWithin o.maxDepth o.allowTrailing .operand .fresh [] (words source ++ [y]) =
        scanWithin o.maxDepth o.allowTrailing .operator g [] [y])
    (ht : Derives o.grouping .expression ((words source).map Lexeme.token) t) : parse source o = .ok t := by
  obtain ⟨y, hsplit, hy, _⟩ := lexemes_eq_concat source
  obtain ⟨g, hpass⟩ := hscan y hy
  have hend : scanWithin o.maxDepth o.allowTrailing .operator g [] [y] = .ok [y] :=
    scanWithin_finish (fun _ hx => by cases hy.symm.trans hx) (by rw [hy]; rfl) (.inr hy)
  have hrun := run_scanWithin source o
  rw [hsplit, hpass, hend] at hrun
  cases hr : run source o with
  | error e d =>
    rw [hr] at hrun
    cases hrun
  | ok u d =>
    rw [hr] at hrun
    have hrest : [y] = d.ahead := Except.ok.inj hrun
    obtain ⟨xs, hread, hu, _⟩ := (run_reads hr).1
    rw [← hrest, hsplit] at hread
    obtain rfl : words source = xs := List.append_cancel_right hread
    rw [(parse_eq_ok_iff source o).mpr ⟨d, hr⟩, hu.unique ht]

end

/-- Strict parsing decides the reference grammar, unless the source nests too
deep, and no phrase of the grammar has two trees. -/
theorem parse_eq_ok_iff_derives (source : String) (o : Options) (hstrict : o.allowTrailing = false)
    (hlimit : WithinLimit source o) :
    (∀ t, parse source o = .ok t ↔ (∀ x ∈ words source, x.Readable) ∧
      Derives o.grouping .expression ((words source).map Lexeme.token) t) ∧
    ∀ ts t u, Derives o.grouping .expression ts t → Derives o.grouping .expression ts u → t = u := by
  refine ⟨fun t => ⟨derives_of_parse hstrict, fun ⟨hlegal, ht⟩ => ?_⟩, fun ts t u ht hu => ht.unique hu⟩
  obtain ⟨u, hu⟩ := exists_parse_of_derives hlimit hlegal ht
  rw [hu, (derives_of_parse hstrict hu).2.unique ht]

theorem parse_eq_ok_iff_derives_left :
    WithinLimit "8-(3)*+2-1" ⟨.left, false, 9⟩ ∧ (parse "8-(3)*+2-1" ⟨.left, false, 9⟩).isOk = true ∧
      ∀ t, parse "8-(3)*+2-1" ⟨.left, false, 9⟩ = .ok t ↔
        (∀ x ∈ words "8-(3)*+2-1", x.Readable) ∧
          Derives .left .expression ((words "8-(3)*+2-1").map Lexeme.token) t := by
  have hlimit : WithinLimit "8-(3)*+2-1" ⟨.left, false, 9⟩ := by decide +kernel
  have haccepted : (parse "8-(3)*+2-1" ⟨.left, false, 9⟩).isOk = true := by decide +kernel
  exact ⟨hlimit, haccepted, (parse_eq_ok_iff_derives _ _ rfl hlimit).1⟩

end Parse

end Calculator
