import LoxLang.Proofs.Command.SavedTree
import LoxLang.Proofs.Run.Piecewise

/-!
What a session keeps of its problems.

Whatever programs are run in a session and however often its report is reset, the flags of the
report tell of the problems in it, and the text holds all problems ever added. So the exit status of
a script and what it shows of errors tell the same.
-/
namespace LoxLang.Report

/-- The flags tell of the problems in the report, and the text is that of all ever added. -/
structure Consistent (r : Report) (ever : List Diagnostic) : Prop where
  hadError : r.hadError ↔ ∃ d ∈ r.diagnostics, d.kind = .lexical ∨ d.kind = .syntactic
  hadRuntimeError : r.hadRuntimeError ↔ ∃ d ∈ r.diagnostics, d.kind = .runtime
  written : r.written = Text.join (ever.map fun d => d.text ++ "\n")

variable {r : Report} {ever : List Diagnostic}

theorem kind_ne_runtime_iff (d : Diagnostic) :
    d.kind ≠ .runtime ↔ d.kind = .lexical ∨ d.kind = .syntactic := by
  cases d.kind <;> simp

theorem consistent_empty : Consistent {} [] := by
  constructor
  · simp
  · simp
  · rfl

theorem Consistent.addAll (h : r.Consistent ever) (ds : List Diagnostic) :
    (r.addAll ds).Consistent (ever ++ ds) := by
  constructor
  · have hadded : ds.any (·.kind != .runtime) ↔
        ∃ d ∈ ds, d.kind = .lexical ∨ d.kind = .syntactic := by
      simp [kind_ne_runtime_iff]
    unfold Report.addAll
    simp only [Bool.or_eq_true, h.hadError, hadded, List.mem_append, or_and_right, exists_or]
  · have hadded : ds.any (·.kind == .runtime) ↔ ∃ d ∈ ds, d.kind = .runtime := by
      simp
    unfold Report.addAll
    simp only [Bool.or_eq_true, h.hadRuntimeError, hadded, List.mem_append, or_and_right, exists_or]
  · unfold Report.addAll
    simp only [h.written, List.map_append, Text.join_append]

theorem Consistent.reset (h : r.Consistent ever) : r.reset.Consistent ever := by
  constructor
  · simp [Report.reset]
  · simp [Report.reset]
  · exact h.written

end LoxLang.Report

namespace LoxLang.Session

open Run

/-- What may be asked of a session: to run a source text, or statements on the global variables or
in a chain of scopes of their own, and to reset its report. -/
inductive Call where
  | run (source : String)
  | interpret (program : List Stmt)
  | interpretIn (program : List Stmt) (chain : Chain)
  | reset

/-- Statements are well formed, and scopes hold values of the language. -/
def Call.Fits : Call → Prop
  | .run _ | .reset => True
  | .interpret program => ∀ t ∈ program, t.WellFormed
  | .interpretIn program chain => (∀ t ∈ program, t.WellFormed) ∧ chain.IsLox

/-- What a call comes to, if it runs a program, and the session after it. -/
def call (s : Session) : Call → Option Ending × Session
  | .run source => (s.runSource source).map some id
  | .interpret program => (s.interpret (Stmt.toValues program)).map some id
  | .interpretIn program chain =>
    let (ending, _, s) := s.interpretIn (Stmt.toValues program) chain
    (some ending, s)
  | .reset => (none, s.reset)

/-- The problems behind those that were there before a call. -/
def added (s : Session) (c : Call) : List Diagnostic :=
  (s.call c).2.report.diagnostics.drop s.report.diagnostics.length

/-- The session after some calls. -/
def afterCalls (s : Session) (calls : List Call) : Session :=
  calls.foldl (fun s c => (s.call c).2) s

/-- The problems that calls add in turn, whether they are still in the report or not. -/
def history (s : Session) : List Call → List Diagnostic
  | [] => []
  | c :: calls => s.added c ++ (s.call c).2.history calls

/-- How a session answers a call and what this adds to the report. -/
def Answers (s : Session) : Call → Prop
  | .run source => ∃ completed lexical syntactic runtime,
      (s.call (.run source)).1 = some (.ok completed) ∧
      (s.call (.run source)).2.report.diagnostics =
        s.report.diagnostics ++ (lexical ++ syntactic ++ runtime) ∧
      (∀ d ∈ lexical, d.kind = .lexical) ∧ (∀ d ∈ syntactic, d.kind = .syntactic) ∧
      (∀ d ∈ runtime, d.kind = .runtime) ∧ runtime.length = if completed then 0 else 1
  | .reset => (s.call .reset).1 = none ∧ (s.call .reset).2.report.diagnostics = []
  | c =>
      (s.call c).1 = some (.ok true) ∧ (s.call c).2.report.diagnostics = s.report.diagnostics ∨
      (s.call c).1 = some (.ok false) ∧ ∃ d : Diagnostic, d.kind = .runtime ∧
        (s.call c).2.report.diagnostics = s.report.diagnostics ++ [d]

variable {s : Session} {ever : List Diagnostic}

theorem call_report (s : Session) {c : Call} (hc : c ≠ .reset) :
    ∃ ds, (s.call c).2.report = s.report.addAll ds := by
  cases c with
  | run source =>
    rw [call, runSource_leaves]
    exact ⟨_, rfl⟩
  | interpret program =>
    rw [call, interpret_eq]
    exact ⟨_, rfl⟩
  | interpretIn program chain =>
    rw [call, interpretIn_eq]
    exact ⟨_, rfl⟩
  | reset => exact absurd rfl hc

/-- A call keeps the report consistent with the problems ever added. -/
theorem call_consistent (h : s.report.Consistent ever) (c : Call) :
    (s.call c).2.report.Consistent (ever ++ s.added c) := by
  by_cases hc : c = .reset
  · have hnone : s.added .reset = [] := List.drop_nil
    rw [hc, hnone, List.append_nil]
    exact h.reset
  · obtain ⟨ds, hds⟩ := s.call_report hc
    have hadded : s.added c = ds := by
      unfold added
      rw [hds]
      exact List.drop_left
    rw [hds, hadded]
    exact h.addAll ds

theorem afterCalls_consistent (h : s.report.Consistent ever) (calls : List Call) :
    (s.afterCalls calls).report.Consistent (ever ++ s.history calls) := by
  induction calls generalizing s ever with
  | nil =>
    rw [history, List.append_nil]
    exact h
  | cons c calls ih =>
    rw [history, ← List.append_assoc]
    exact ih (call_consistent h c)

/-- A call keeps values of the language in the global variables. -/
theorem call_isLox (hs : s.globals.IsLox) {c : Call} (hc : c.Fits) :
    (s.call c).2.globals.IsLox := by
  cases c with
  | run source =>
    obtain ⟨completed, -, hglobals⟩ := s.runSource_isLox hs source
    exact hglobals
  | interpret program =>
    obtain ⟨completed, -, hglobals⟩ :=
      s.interpret_safe steady_isLox hs (fun _ _ => Value.isLegible_of_isLox) hc
    exact hglobals
  -- statements that run in scopes of their own leave the global variables alone
  | interpretIn program chain =>
    rw [call, interpretIn_eq]
    exact hs
  | reset => exact hs

theorem afterCalls_isLox (hs : s.globals.IsLox) {calls : List Call} (hcalls : ∀ c ∈ calls, c.Fits) :
    (s.afterCalls calls).globals.IsLox := by
  induction calls generalizing s with
  | nil => exact hs
  | cons c calls ih =>
    obtain ⟨hc, hcalls⟩ := List.forall_mem_cons.mp hcalls
    exact ih (call_isLox hs hc) hcalls

/-- Statements that are stopped have one problem, a runtime problem, and others have none. -/
theorem problems_of_ending {result : Except Fault Unit} {completed : Bool}
    (h : ending result = .ok completed) :
    completed = true ∧ problems result = [] ∨
      completed = false ∧ ∃ d : Diagnostic, d.kind = .runtime ∧ problems result = [d] := by
  rcases result with (e | b) | u
  · right
    cases h
    exact ⟨rfl, .runtime e.token.line e.message, rfl, rfl⟩
  · cases h
  · left
    cases h
    exact ⟨rfl, rfl⟩

theorem answers_run (hs : s.globals.IsLox) (source : String) : s.Answers (.run source) := by
  obtain ⟨completed, hcompleted, -⟩ := s.runSource_isLox hs source
  have hleaves := s.runSource_leaves source
  have hending : ending (s.ranSource source).1 = .ok completed := by
    rw [← hcompleted, hleaves]
  have hreport := congrArg (fun outcome => outcome.2.report.diagnostics) hleaves
  refine ⟨completed, (Source.scan source).diagnostics,
    (Grammar.parse (Source.scan source).tokens).complaints.map Grammar.Complaint.diagnostic,
    problems (s.ranSource source).1, congrArg some hcompleted, hreport, ?_, ?_, ?_⟩
  · intro d hd
    obtain ⟨e, -, rfl⟩ := List.mem_map.mp hd
    rfl
  · intro d hd
    obtain ⟨c, -, rfl⟩ := List.mem_map.mp hd
    rfl
  · refine ⟨fun d => kind_of_mem_problems, ?_⟩
    obtain ⟨rfl, hnone⟩ | ⟨rfl, d, -, hone⟩ := problems_of_ending hending
    · rw [hnone]
      rfl
    · rw [hone]
      rfl

/-- Well-formed statements on values of the language are completed, or stopped by an error that is
added to the report. -/
theorem interpretIn_answers (s : Session) {program : List Stmt}
    (hprogram : ∀ t ∈ program, t.WellFormed) {chain : Chain} (hchain : chain.IsLox) :
    s.Answers (.interpretIn program chain) := by
  obtain ⟨⟨completed, hcompleted⟩, -⟩ :=
    s.ran_safe steady_isLox hchain (fun _ _ => Value.isLegible_of_isLox) hprogram
  have hcall : s.call (.interpretIn program chain) =
      (some (ending (s.ran (Stmt.toValues program) chain).1),
        s.afterRun (s.ran (Stmt.toValues program) chain)) := by
    rw [call, interpretIn_eq]
  change (s.call _).1 = _ ∧ _ ∨ (s.call _).1 = _ ∧ _
  rw [hcall, hcompleted, afterRun]
  obtain ⟨rfl, hnone⟩ | ⟨rfl, d, hd, hone⟩ := problems_of_ending hcompleted
  · rw [hnone, Report.addAll_nil]
    exact .inl ⟨rfl, rfl⟩
  · rw [hone]
    exact .inr ⟨rfl, d, hd, rfl⟩

theorem answers_of_fits (hs : s.globals.IsLox) {c : Call} (hc : c.Fits) : s.Answers c := by
  cases c with
  | run source => exact answers_run hs source
  -- the global variables are a chain of one scope
  | interpret program => exact s.interpretIn_answers hc (List.forall_mem_singleton.mpr hs)
  | interpretIn program chain => exact s.interpretIn_answers hc.1 hc.2
  | reset => exact ⟨rfl, rfl⟩

end LoxLang.Session

namespace LoxLang.Command

open Run

theorem join_eq_empty_iff (ds : List Diagnostic) :
    Text.join (ds.map fun d => d.text ++ "\n") = "" ↔ ds = [] := by
  cases ds with
  | nil => simp
  | cons d ds =>
    have hempty : (Text.whole "").points = [] := rfl
    have hline : (Text.whole "\n").points = [.char '\n'] := rfl
    simp [← Text.points_inj, hempty, hline]

/-- Scanning or parsing the source text finds a problem. -/
def HasStaticProblem (source : String) : Prop :=
  (Source.scan source).errors ≠ [] ∨ (Grammar.parse (Source.scan source).tokens).complaints ≠ []

/-- The statements of the source text, run without any variables, are stopped by an error. -/
def StopsWithError (source : String) : Prop :=
  ∃ e, (executeAll (Stmt.toValues (Session.statementsOf source)) ⟨[{}], #[], .start 0⟩).1 =
    .error (.runtime e)

theorem hasStaticProblem_iff (source : String) :
    HasStaticProblem source ↔ (Session.readSource source).diagnostics ≠ [] := by
  unfold HasStaticProblem Session.readSource Source.Scan.diagnostics
  simp [imp_iff_not_or]

/-- What the statements come to does not depend on the trace. -/
theorem ranSource_start (source : String) (level : Int) :
    ((Session.start level).ranSource source).1 =
      (executeAll (Stmt.toValues (Session.statementsOf source)) ⟨[{}], #[], .start 0⟩).1 := by
  have hwell := Session.statementsOf_wellFormed source
  have hempty : Chain.IsLox [{}] := List.forall_mem_singleton.mpr nofun
  obtain ⟨⟨completed, hending⟩, -⟩ := (Session.start level).ran_safe steady_isLox hempty
    (fun _ _ => Value.isLegible_of_isLox) hwell
  obtain ⟨-, -, hsame⟩ := (hasHistory_executeProgram
    (Stmt.toValues (Session.statementsOf source))).traced [{}] (.start level)
  obtain ⟨hresult, -⟩ := hsame (not_brokenOff_of_ending hending)
  obtain ⟨huntraced, -⟩ := (Session.start 0).ran_eq_executeAll hwell [{}] #[] rfl
  exact hresult.trans huntraced

theorem stopsWithError_iff (source : String) (level : Int) :
    StopsWithError source ↔ Run.problems ((Session.start level).ranSource source).1 ≠ [] := by
  rw [ranSource_start, StopsWithError]
  generalize (executeAll (Stmt.toValues (Session.statementsOf source)) ⟨[{}], #[], .start 0⟩).1 = x
  rcases x with (e | b) | u <;> simp [Run.problems]

/-- What a session that runs a source text first of all has in its report afterwards. -/
theorem runSource_flags (source : String) (v : ℕ) :
    (((Session.start v).runSource source).2.report.hadError ↔ HasStaticProblem source) ∧
    (((Session.start v).runSource source).2.report.hadRuntimeError ↔ StopsWithError source) ∧
    (((Session.start v).runSource source).2.report.written = "" ↔
      ¬ HasStaticProblem source ∧ ¬ StopsWithError source) := by
  have hreport : ((Session.start v).runSource source).2.report = ({} : Report).addAll
      ((Session.readSource source).diagnostics ++
        Run.problems ((Session.start v).ranSource source).1) := by
    rw [Session.runSource_leaves]
    rfl
  have hconsistent := Report.consistent_empty.addAll ((Session.readSource source).diagnostics ++
    Run.problems ((Session.start v).ranSource source).1)
  rw [← hreport] at hconsistent
  have hdiagnostics : ((Session.start v).runSource source).2.report.diagnostics =
      (Session.readSource source).diagnostics ++ Run.problems ((Session.start v).ranSource source).1 := by
    rw [hreport]
    rfl
  rw [hasStaticProblem_iff, stopsWithError_iff source v, hconsistent.hadError,
    hconsistent.hadRuntimeError, hconsistent.written, hdiagnostics, List.nil_append]
  refine ⟨⟨?_, ?_⟩, ⟨?_, ?_⟩, ?_⟩
  · rintro ⟨d, hd, hkind⟩ hnone
    rw [hnone, List.nil_append] at hd
    rw [kind_of_mem_problems hd] at hkind
    simp at hkind
  · intro hne
    obtain ⟨d, hd⟩ := List.exists_mem_of_ne_nil _ hne
    refine ⟨d, List.mem_append_left _ hd, ?_⟩
    exact (Report.kind_ne_runtime_iff d).mp (Session.readSource_static source d hd)
  · rintro ⟨d, hd, hkind⟩ hnone
    rw [hnone, List.append_nil] at hd
    exact Session.readSource_static source d hd hkind
  · intro hne
    obtain ⟨d, hd⟩ := List.exists_mem_of_ne_nil _ hne
    exact ⟨d, List.mem_append_right _ hd, kind_of_mem_problems hd⟩
  · rw [join_eq_empty_iff, List.append_eq_nil_iff, not_not, not_not]

theorem exitStatus_iff (r : Report) :
    (exitStatus r = 65 ↔ r.hadError) ∧
    (exitStatus r = 70 ↔ ¬ r.hadError ∧ r.hadRuntimeError) ∧
    (exitStatus r = 0 ↔ ¬ r.hadError ∧ ¬ r.hadRuntimeError) := by
  unfold exitStatus
  cases r.hadError <;> cases r.hadRuntimeError <;> decide

/-- The exit status tells what is wrong with a script, and errors are shown if anything is. -/
structure Deed.TellsOf (deed : Deed) (source : String) : Prop where
  static : deed.verdict = .exit 65 ↔ HasStaticProblem source
  stopped : deed.verdict = .exit 70 ↔ ¬ HasStaticProblem source ∧ StopsWithError source
  completed : deed.verdict = .exit 0 ↔ ¬ HasStaticProblem source ∧ ¬ StopsWithError source
  silent : deed.verdict = .exit 0 ↔ deed.errors = ""

theorem runScript_tellsOf {bytes : ByteArray} {source : String} (h : textOf? bytes = some source)
    (p : Path) (v : ℕ) : (runScript p (.ok (.file bytes)) (.start v)).TellsOf source := by
  have hempty : (Session.start v).globals.IsLox := nofun
  obtain ⟨completed, hcompleted, -⟩ := (Session.start v).runSource_isLox hempty source
  have hrun : (Session.start v).runSource source =
      (.ok completed, ((Session.start v).runSource source).2) := by
    rw [← hcompleted]
  have hdeed : runScript p (.ok (.file bytes)) (.start v) =
      concluded ((Session.start v).runSource source).2
        (.exit (exitStatus ((Session.start v).runSource source).2.report)) := by
    unfold runScript readEntry
    simp only [h]
    rw [hrun]
    rfl
  obtain ⟨hstatic, hstops, hwritten⟩ := runSource_flags source v
  obtain ⟨hdata, hsoftware, hzero⟩ :=
    exitStatus_iff ((Session.start v).runSource source).2.report
  rw [hstatic, hstops] at hsoftware hzero
  rw [hstatic] at hdata
  rw [hdeed]
  unfold concluded
  constructor
  · rw [Verdict.exit.injEq, hdata]
  · rw [Verdict.exit.injEq, hsoftware]
  · rw [Verdict.exit.injEq, hzero]
  · rw [Verdict.exit.injEq, hzero, hwritten]

/--
The flags and the text of a report, the result of a call and the exit status agree. After any calls
the flags tell of the problems in the report, and its text is that of all problems that the calls
added, one after the other, with resets in between or not. Each source text adds lexical problems,
then syntax problems, then at most one runtime problem, and statements add one runtime problem if
they are stopped and nothing if they are completed. A script exits with 65 if it has a static
problem, with 70 if it has none and is stopped by an error, and with 0 otherwise, which is when it
shows no errors.
-/
theorem report_and_exit_agree :
    (∀ (level : Int) (calls : List Session.Call), (∀ c ∈ calls, c.Fits) →
      ((Session.start level).afterCalls calls).report.Consistent
        ((Session.start level).history calls) ∧
      ∀ c : Session.Call, c.Fits → ((Session.start level).afterCalls calls).Answers c) ∧
    ∀ (d : Disk) (f source input : String) (v : ℕ), readEntry (d.entry (.ofText f)) = .ok source →
      (v ≠ 0 → d.entry tracePath ≠ .ok .directory ∧
        ∀ e, d.follow (.ofText f) ≠ .ok (d.tracePlace, e)) →
      (d.perform { script := some f, verbosity := v } input).1.TellsOf source := by
  constructor
  · intro level calls hcalls
    have hempty : (Session.start level).globals.IsLox := nofun
    have hconsistent :=
      Session.afterCalls_consistent (s := .start level) Report.consistent_empty calls
    rw [List.nil_append] at hconsistent
    exact ⟨hconsistent, fun c => Session.answers_of_fits (Session.afterCalls_isLox hempty hcalls)⟩
  · intro d f source input v hread htrace
    obtain ⟨r, bytes, hfollow, hsource⟩ := exists_follow hread
    have hother := ne_trace_of_follow hfollow htrace
    rw [(perform_script input (ne_empty_of_follow hfollow) hfollow hother).1]
    exact runScript_tellsOf hsource (.ofText f) v

/-- A text with problems of all kinds, a reset, and statements that are stopped. -/
private def troubled : List Session.Call :=
  [.run "print -nil; + @", .reset, .interpret [.print (.variable ⟨.identifier, "a", .nil, 3⟩)]]

theorem report_and_exit_agree_troubled :
    (∀ c ∈ troubled, c.Fits) ∧
    ((Session.start 2).afterCalls troubled).report.Consistent ((Session.start 2).history troubled) ∧
    ((Session.start 2).afterCalls troubled).Answers
      (.interpretIn [.print (.literal .nil)] [{}, {}]) ∧
    readEntry ((single "a.lox" "print -nil;").entry (.ofText "a.lox")) = .ok "print -nil;" ∧
    ((single "a.lox" "print -nil;").perform { script := some "a.lox" } "").1.TellsOf
      "print -nil;" := by
  have hfits : ∀ c ∈ troubled, c.Fits := by
    have hname : (Stmt.print (.variable ⟨.identifier, "a", .nil, 3⟩)).WellFormed := ⟨rfl, trivial⟩
    exact List.forall_mem_cons.mpr ⟨trivial, List.forall_mem_cons.mpr ⟨trivial,
      List.forall_mem_singleton.mpr (List.forall_mem_singleton.mpr hname)⟩⟩
  have hempty : Scope.IsLox {} := nofun
  have hscopes : Chain.IsLox [{}, {}] :=
    List.forall_mem_cons.mpr ⟨hempty, List.forall_mem_singleton.mpr hempty⟩
  have hliteral : (Stmt.print (.literal .nil)).WellFormed := rfl
  have hread : readEntry ((single "a.lox" "print -nil;").entry (.ofText "a.lox")) =
      .ok "print -nil;" :=
    readEntry_single (.inl (by decide)) (by decide) (by decide) (by decide)
  obtain ⟨hcalls, hscript⟩ := report_and_exit_agree
  obtain ⟨hconsistent, hanswers⟩ := hcalls 2 troubled hfits
  have hanswer := hanswers (.interpretIn [.print (.literal .nil)] [{}, {}])
    ⟨List.forall_mem_singleton.mpr hliteral, hscopes⟩
  have htells := hscript (single "a.lox" "print -nil;") "a.lox" "print -nil;" "" 0 hread
    fun h => absurd rfl h
  exact ⟨hfits, hconsistent, hanswer, hread, htells⟩

end LoxLang.Command
