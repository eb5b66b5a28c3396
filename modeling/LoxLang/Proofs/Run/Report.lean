import LoxLang.Proofs.Run.Exec
import LoxLang.Session

/-! What a run leaves in its session: its output, its trace and the problem that stopped it. -/
namespace LoxLang

open Run

namespace Report

theorem addAll_nil (r : Report) : r.addAll [] = r := by
  unfold addAll
  simp

theorem addAll_addAll (r : Report) (ds ds' : List Diagnostic) :
    (r.addAll ds).addAll ds' = r.addAll (ds ++ ds') := by
  simp [addAll, Text.append_assoc, Bool.or_assoc]

/-- A report has a static problem after problems of which one is static. -/
theorem hadError_addAll {ds : List Diagnostic} (h : ∀ d ∈ ds, d.kind ≠ .runtime) (r : Report) :
    (r.addAll ds).hadError = (r.hadError || !ds.isEmpty) := by
  unfold addAll
  cases ds with
  | nil => simp
  | cons d ds => simp [h d List.mem_cons_self]

theorem add_runtime {d : Diagnostic} (h : d.kind = .runtime) (r : Report) :
    (r.add d).hadError = r.hadError ∧ (r.add d).written = r.written ++ (d.text ++ "\n") := by
  unfold add addAll
  simp [h]

end Report

/-- How a program ends, by what its run comes to. -/
def Run.ending : Except Fault Unit → Session.Ending
  | .ok () => .ok true
  | .error (.runtime _) => .ok false
  | .error (.breakdown b) => .error (.breakdown b)

theorem Run.not_brokenOff_of_ending {result : Except Fault Unit} {completed : Bool}
    (h : ending result = .ok completed) : ¬ BrokenOff result := by
  rcases result with (e | b) | u
  · exact not_brokenOff_runtime e
  · cases h
  · exact not_brokenOff_ok ()

/-- The problem that stops a program, if one does. -/
def Run.problems : Except Fault Unit → List Diagnostic
  | .error (.runtime e) => [.runtime e.token.line e.message]
  | _ => []

theorem Run.kind_of_mem_problems {result : Except Fault Unit} {d : Diagnostic}
    (h : d ∈ problems result) : d.kind = .runtime := by
  rcases result with (e | b) | u
  · rw [List.mem_singleton.mp h]
    rfl
  · cases h
  · cases h

namespace Session

/-- The run of a program in a chain of scopes, with the trace of the session. -/
def ran (s : Session) (vs : List Value) (chain : Chain) : Except Fault Unit × World :=
  executeProgram vs ⟨chain, #[], s.trace⟩

/-- The session after such a run, the global variables apart. -/
def afterRun (s : Session) (final : Except Fault Unit × World) : Session :=
  { s with
    report := s.report.addAll (problems final.1)
    output := s.output ++ written final.2.events
    trace := final.2.trace }

theorem interpretIn_eq (s : Session) (vs : List Value) (chain : Chain) :
    s.interpretIn vs chain =
      (ending (s.ran vs chain).1, (s.ran vs chain).2.chain, s.afterRun (s.ran vs chain)) := by
  have hran : (executeProgram vs).run.run ⟨chain, #[], s.trace⟩ = s.ran vs chain := rfl
  unfold interpretIn
  rw [hran]
  rcases s.ran vs chain with ⟨(e | b) | u, w⟩
  · rfl
  · simp only [afterRun, problems, Report.addAll_nil]
    rfl
  · simp only [afterRun, problems, Report.addAll_nil]
    rfl

theorem interpret_eq (s : Session) (vs : List Value) :
    s.interpret vs = (ending (s.ran vs [s.globals]).1,
      { s.afterRun (s.ran vs [s.globals]) with
        globals := (s.ran vs [s.globals]).2.chain.head?.getD {} }) := by
  rw [interpret, interpretIn_eq]

/-- Running a program adds one runtime problem if it is stopped by an error, and nothing else. -/
theorem interpret_report (s : Session) (vs : List Value) :
    (s.interpret vs).2.report = s.report ∨
      ∃ d, d.kind = .runtime ∧ (s.interpret vs).2.report = s.report.add d := by
  rw [interpret_eq]
  change s.report.addAll (problems _) = _ ∨ ∃ d, _ ∧ s.report.addAll (problems _) = _
  rcases (s.ran vs [s.globals]).1 with (e | b) | u
  · exact .inr ⟨.runtime e.token.line e.message, rfl, rfl⟩
  · exact .inl (Report.addAll_nil _)
  · exact .inl (Report.addAll_nil _)

/-- Problems found in reading a source text are static. -/
theorem readSource_static (source : String) :
    ∀ d ∈ (readSource source).diagnostics, d.kind ≠ .runtime := by
  intro d hd
  rcases List.mem_append.mp hd with hscan | hparse
  · obtain ⟨e, -, rfl⟩ := List.mem_map.mp hscan
    exact nofun
  · obtain ⟨c, -, rfl⟩ := List.mem_map.mp hparse
    exact nofun

theorem runSource_of_ok {source : String} {ss : List Stmt}
    (h : (readSource source).statements = .ok ss) (s : Session) :
    s.runSource source =
      { s with report := s.report.addAll (readSource source).diagnostics }.interpret
        (Stmt.toValues ss) := by
  simp only [runSource, h]

theorem runSource_of_error {source : String} {stop : Grammar.Stop}
    (h : (readSource source).statements = .error stop) (s : Session) :
    s.runSource source = (.error (.unparsed stop),
      { s with report := s.report.addAll (readSource source).diagnostics }) := by
  simp only [runSource, h]

/-- Running a source text adds its static problems, and then at most one runtime problem. -/
theorem runSource_report (s : Session) (source : String) :
    (s.runSource source).2.report = s.report.addAll (readSource source).diagnostics ∨
      ∃ d, d.kind = .runtime ∧
        (s.runSource source).2.report = (s.report.addAll (readSource source).diagnostics).add d := by
  cases h : (readSource source).statements with
  | ok ss =>
    rw [runSource_of_ok h]
    exact interpret_report _ _
  | error stop =>
    rw [runSource_of_error h]
    exact .inl rfl

end Session

end LoxLang
