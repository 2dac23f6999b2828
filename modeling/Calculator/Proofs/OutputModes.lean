import Calculator.CommandLine.Outcome
import Calculator.Proofs.PostfixReplay
import Calculator.Proofs.StackRuns

/-!
# The output modes of the command line

Command lines that differ only in what they ask to print parse alike. They all
fail with the same message, or they print the lines of one report.
-/

namespace Calculator.CommandLine

/-! ## Command lines -/

/-- An option of the parser. The text behind `--max-depth` may be any that reads. -/
inductive Setting where
  | leftAssoc
  | allowTrailing
  | maxDepth (text : String) (limit : Nat) (reads : wordNumber? text = some limit)

namespace Setting

def name : Setting → OptionName
  | leftAssoc => .leftAssoc
  | allowTrailing => .allowTrailing
  | maxDepth .. => .maxDepth

def words : Setting → List String
  | leftAssoc => ["--left-assoc"]
  | allowTrailing => ["--allow-trailing"]
  | maxDepth text .. => ["--max-depth", text]

/-- What the option means for the parser. -/
def apply (o : Parse.Options) : Setting → Parse.Options
  | leftAssoc => { o with grouping := .left }
  | allowTrailing => { o with allowTrailing := true }
  | maxDepth _ limit _ => { o with maxDepth := limit }

end Setting

def Strategy.name : Strategy → String
  | tree => "tree"
  | stack => "stack"
  | reversePolish => "postfix"

def Output.words : Output → List String
  | report => ["--all"]
  | single s => ["--strategy", s.name]

/-- A command line that leaves open what to print, with the options before and behind that choice. -/
structure Frame where
  before : List Setting
  after : List Setting
  once : ((before ++ after).map Setting.name).Nodup
  source : String

namespace Frame

/-- What the options name. -/
def options (f : Frame) : Parse.Options := (f.before ++ f.after).foldl Setting.apply {}

def arguments (f : Frame) (output : Output) : List String :=
  f.before.flatMap Setting.words ++ (output.words ++ (f.after.flatMap Setting.words ++ ["--", f.source]))

end Frame

/-! ## Reading the options -/

namespace Arguments

def set (a : Arguments) : Setting → Arguments
  | .leftAssoc => { a with leftAssoc := true }
  | .allowTrailing => { a with allowTrailing := true }
  | .maxDepth _ limit _ => { a with maxDepth := some limit }

/-- The option was not given yet. -/
def Lacks (a : Arguments) : Setting → Prop
  | .leftAssoc => a.leftAssoc = false
  | .allowTrailing => a.allowTrailing = false
  | .maxDepth .. => a.maxDepth = none

def choose (a : Arguments) : Output → Arguments
  | .report => { a with all := true }
  | .single s => { a with strategy := some s }

/-- The options of the parser that were read. -/
def options (a : Arguments) : Parse.Options where
  grouping := if a.leftAssoc then .left else .right
  allowTrailing := a.allowTrailing
  maxDepth := a.maxDepth.getD ({} : Parse.Options).maxDepth

section
variable {a b : Arguments} {argument value : String} {name : OptionName} {s s' : Setting} {settings : List Setting}
  {output : Output} (rest : List String)

theorem read_option (hne : argument ≠ "--")
    (hname : (OptionName.ofLong? argument).or (OptionName.ofShort? argument) = some name) :
    (name.takesValue = false → a.read (argument :: rest) = a.setFlag name >>= fun b => b.read rest) ∧
    (name.takesValue = true → ∀ value,
      a.read (argument :: value :: rest) = a.setValue value name >>= fun b => b.read rest) := by
  refine ⟨fun hflag => ?_, fun hvalue value => ?_⟩
  · rw [read]
    · simp [hname, hflag]
    · exact hne
  · rw [read]
    · simp [hname, hvalue]
    · exact hne

theorem read_flag (hne : argument ≠ "--")
    (hname : (OptionName.ofLong? argument).or (OptionName.ofShort? argument) = some name)
    (hflag : name.takesValue = false) (hset : a.setFlag name = .ok b) : a.read (argument :: rest) = b.read rest := by
  rw [(read_option rest hne hname).1 hflag, hset]
  rfl

theorem read_value (hne : argument ≠ "--")
    (hname : (OptionName.ofLong? argument).or (OptionName.ofShort? argument) = some name)
    (hvalue : name.takesValue = true) (hset : a.setValue value name = .ok b) :
    a.read (argument :: value :: rest) = b.read rest := by
  rw [(read_option rest hne hname).2 hvalue value, hset]
  rfl

theorem read_setting (h : a.Lacks s) : a.read (s.words ++ rest) = (a.set s).read rest := by
  cases s with
  | leftAssoc => exact read_flag rest (by decide) rfl rfl (if_neg (Bool.eq_false_iff.mp h))
  | allowTrailing => exact read_flag rest (by decide) rfl rfl (if_neg (Bool.eq_false_iff.mp h))
  | maxDepth text limit hreads =>
    have hset : a.setValue text .maxDepth = .ok (a.set (.maxDepth text limit hreads)) := by
      rw [setValue, show a.maxDepth = none from h, hreads]
      rfl
    exact read_value rest (by decide) rfl rfl hset

theorem read_output (hall : a.all = false) (hstrategy : a.strategy = none) :
    a.read (output.words ++ rest) = (a.choose output).read rest := by
  cases output with
  | report => exact read_flag rest (by decide) rfl rfl (if_neg (Bool.eq_false_iff.mp hall))
  | single s =>
    have hset : a.setValue s.name .strategy = .ok (a.choose (.single s)) := by
      rw [setValue, hstrategy]
      cases s <;> rfl
    exact read_value rest (by decide) rfl rfl hset

theorem Lacks.set (h : a.Lacks s) (hne : s'.name ≠ s.name) : (a.set s').Lacks s := by
  cases s <;> cases s' <;> first
    | exact h
    | exact absurd rfl hne

theorem lacks_foldl (h : a.Lacks s) (hne : ∀ s' ∈ settings, s'.name ≠ s.name) :
    (settings.foldl Arguments.set a).Lacks s := by
  induction settings generalizing a with
  | nil => exact h
  | cons s' settings ih =>
    obtain ⟨hs', hsettings⟩ := List.forall_mem_cons.mp hne
    exact ih (h.set hs') hsettings

theorem read_settings (honce : (settings.map Setting.name).Nodup) (h : ∀ s ∈ settings, a.Lacks s) :
    a.read (settings.flatMap Setting.words ++ rest) = (settings.foldl Arguments.set a).read rest := by
  induction settings generalizing a with
  | nil => rfl
  | cons s settings ih =>
    obtain ⟨hs, hsettings⟩ := List.forall_mem_cons.mp h
    rw [List.map_cons, List.nodup_cons] at honce
    have hrest : ∀ s' ∈ settings, (a.set s).Lacks s' := fun s' hs' =>
      (hsettings s' hs').set fun heq => honce.1 (heq ▸ List.mem_map_of_mem hs')
    rw [List.flatMap_cons, List.append_assoc, read_setting _ hs, ih honce.2 hrest, List.foldl_cons]

end

/-! ## What is read -/

section
variable (a : Arguments) (settings : List Setting) (output : Output)

theorem foldl_choose :
    settings.foldl Arguments.set (a.choose output) = (settings.foldl Arguments.set a).choose output := by
  induction settings generalizing a with
  | nil => rfl
  | cons s settings ih =>
    have hset : (a.choose output).set s = (a.set s).choose output := by
      cases output <;> cases s <;> rfl
    rw [List.foldl_cons, hset, ih, List.foldl_cons]

theorem options_foldl : (settings.foldl Arguments.set a).options = settings.foldl Setting.apply a.options := by
  induction settings generalizing a with
  | nil => rfl
  | cons s settings ih =>
    rw [List.foldl_cons, ih, List.foldl_cons]
    cases s <;> rfl

theorem unset_foldl : (settings.foldl Arguments.set a).all = a.all ∧
    (settings.foldl Arguments.set a).strategy = a.strategy ∧
    (settings.foldl Arguments.set a).expression = a.expression := by
  induction settings generalizing a with
  | nil => exact ⟨rfl, rfl, rfl⟩
  | cons s settings ih =>
    rw [List.foldl_cons]
    cases s <;> exact ih _

theorem request_choose (source : String) (hall : a.all = false) (hstrategy : a.strategy = none) :
    ({ a.choose output with expression := some source } : Arguments).request = .ok ⟨source, a.options, output⟩ := by
  cases output <;> simp [request, choose, options, hall, hstrategy]

end

end Arguments

namespace Frame

variable (f : Frame) (output : Output)

/-- What the options of the parser set. -/
def settings : Arguments := (f.before ++ f.after).foldl Arguments.set {}

theorem read_arguments :
    Arguments.read {} (f.arguments output) = .ok { f.settings.choose output with expression := some f.source } := by
  have honce := f.once
  rw [List.map_append, List.nodup_append] at honce
  obtain ⟨hbefore, hafter, hdisjoint⟩ := honce
  have hfresh : ∀ s, ({} : Arguments).Lacks s := by
    intro s
    cases s <;> rfl
  have hlacks : ∀ s ∈ f.after, ((f.before.foldl Arguments.set {}).choose output).Lacks s := by
    intro s hs
    have hb := Arguments.lacks_foldl (hfresh s) fun s' hs' =>
      hdisjoint s'.name (List.mem_map_of_mem hs') s.name (List.mem_map_of_mem hs)
    cases output <;> cases s <;> exact hb
  obtain ⟨hall, hstrategy, -⟩ := Arguments.unset_foldl {} f.before
  obtain ⟨-, -, hexpression⟩ := Arguments.unset_foldl {} (f.before ++ f.after)
  have hnone : (f.settings.choose output).expression = none := by
    cases output <;> exact hexpression
  rw [arguments, Arguments.read_settings _ hbefore (fun s _ => hfresh s), Arguments.read_output _ hall hstrategy,
    Arguments.read_settings _ hafter hlacks, Arguments.foldl_choose, ← List.foldl_append]
  show ([f.source].foldlM Arguments.setExpression (f.settings.choose output)) = _
  simp [Arguments.setExpression, hnone]

theorem ofArguments_arguments : Request.ofArguments (f.arguments output) = .ok ⟨f.source, f.options, output⟩ := by
  obtain ⟨hall, hstrategy, -⟩ := Arguments.unset_foldl {} (f.before ++ f.after)
  have hoptions : f.settings.options = f.options := Arguments.options_foldl {} _
  rw [Request.ofArguments, f.read_arguments, ← hoptions]
  exact Arguments.request_choose f.settings output f.source hall hstrategy

end Frame

/-! ## The lines printed -/

/-- The text stays on its line. -/
def IsLine (text : String) : Prop := '\n' ∉ text.toList

theorem isLine_of_isWord {word : String} (h : Text.IsWord word.toList) : IsLine word := fun hmem => by
  have hspace := List.any_eq_false.mp h.2 '\n' hmem
  exact hspace (by decide)

theorem newline_notMem_intercalate {runs : List (List Char)} (h : ∀ run ∈ runs, '\n' ∉ run) :
    '\n' ∉ [' '].intercalate runs := by
  induction runs with
  | nil => exact List.not_mem_nil
  | cons run runs ih =>
    obtain ⟨hrun, hruns⟩ := List.forall_mem_cons.mp h
    cases runs with
    | nil => simpa [List.intercalate] using hrun
    | cons next runs =>
      rw [List.intercalate_cons_cons]
      simp only [List.mem_append, List.mem_singleton, not_or]
      exact ⟨⟨hrun, by decide⟩, ih hruns⟩

theorem isLine_postfixText (t : Expr) : IsLine t.postfixText := by
  have hspace : " ".toList = [' '] := by decide
  rw [IsLine, Expr.postfixText, String.toList_intercalate, hspace]
  refine newline_notMem_intercalate fun run hrun => ?_
  obtain ⟨word, hword, rfl⟩ := List.mem_map.mp hrun
  exact isLine_of_isWord (Expr.isWord_of_mem_postfixWords hword)

/-- Every choice of output meets the same parse. -/
theorem run_arguments (f : Frame) (output : Output) :
    run (f.arguments output) = match parse f.source f.options with
      | .ok t => .ofReport ⟨t.value, t.postfixText, t.value⟩ output
      | .error e => ⟨1, "", e.message ++ "\n"⟩ := by
  rw [run, f.ofArguments_arguments]
  dsimp only
  rw [Outcome.ofRequest, Report.ofSource]
  cases parse f.source f.options with
  | ok t =>
    dsimp only
    rw [Report.ofExpr_eq]
    rfl
  | error e => rfl

def Strategy.line (report : Report) : Strategy → String
  | tree => report.tree.toText
  | stack => report.stack.toText
  | reversePolish => report.postfixText

theorem ofReport_single (report : Report) (s : Strategy) :
    Outcome.ofReport report (.single s) = .success (unlines [s.line report]) := by
  cases s <;> simp [Outcome.ofReport, unlines, Strategy.line]

theorem ofReport_report (report : Report) : Outcome.ofReport report .report =
    .success (unlines [report.tree.toText, report.postfixText, report.stack.toText]) := by
  simp [Outcome.ofReport, Report.text, unlines, String.append_assoc]

/-- Runs that differ in the choice of output all refuse the expression, with the parser's message,
or all succeed and print the same lines: the value, the postfix text and the value again, each alone
or all three in this order. -/
theorem output_modes_agree (f : Frame) :
    (∃ e, parse f.source f.options = .error e ∧
      ∀ output, run (f.arguments output) = ⟨1, "", e.message ++ "\n"⟩) ∨
    ∃ t, parse f.source f.options = .ok t ∧ IsLine t.value.toText ∧ IsLine t.postfixText ∧
      run (f.arguments (.single .tree)) = .success (unlines [t.value.toText]) ∧
      run (f.arguments (.single .reversePolish)) = .success (unlines [t.postfixText]) ∧
      run (f.arguments (.single .stack)) = .success (unlines [t.value.toText]) ∧
      run (f.arguments .report) = .success (unlines [t.value.toText, t.postfixText, t.value.toText]) ∧
      (run (f.arguments .report)).stdout = (run (f.arguments (.single .tree))).stdout ++
        (run (f.arguments (.single .reversePolish))).stdout ++ (run (f.arguments (.single .stack))).stdout := by
  cases hp : parse f.source f.options with
  | error e =>
    refine .inl ⟨e, rfl, fun output => ?_⟩
    rw [run_arguments, hp]
  | ok t =>
    have hrun : ∀ output, run (f.arguments output) = .ofReport ⟨t.value, t.postfixText, t.value⟩ output := by
      intro output
      rw [run_arguments, hp]
    simp only [hrun, ofReport_single, ofReport_report]
    refine .inr ⟨t, rfl, isLine_of_isWord t.value.isWord_toText, isLine_postfixText t, rfl, rfl, rfl, rfl, ?_⟩
    simp [Outcome.success, unlines, Strategy.line, String.append_assoc]

example : run (Frame.arguments ⟨[.leftAssoc], [.maxDepth "9" 9 rfl], by decide, "1-2-3"⟩ .report) =
    .success "-4\n1 2 - 3 -\n-4\n" := by decide +kernel

end Calculator.CommandLine
