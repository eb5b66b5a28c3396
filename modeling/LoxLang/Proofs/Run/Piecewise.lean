import Mathlib.Algebra.GroupWithZero.Nat
import LoxLang.Proofs.Grammar.Sequence
import LoxLang.Proofs.Run.FurtherDown
import LoxLang.Proofs.Run.History

/-!
Running a program piece by piece. Source texts of which all but the last are run without a problem
leave a session as if they had been joined by line ends and run at once, but for the lines that the
problems of the last one name.
-/
namespace LoxLang

open Grammar Run

/-! What a source text is taken for behind another one. -/

namespace Session

/-! What a run leaves behind, by what its statements do to the global variables. -/

/-- A program comes to what its statements come to, whatever happened before. -/
theorem ran_eq_executeAll {ss : List Stmt} (hss : ∀ t ∈ ss, t.WellFormed) (s : Session)
    (chain : Chain) (events : Array Event) {t : Trace} (ht : t.shows = s.trace.shows) :
    let ran := s.ran (Stmt.toValues ss) chain
    let final := executeAll (Stmt.toValues ss) ⟨chain, events, t⟩
    ran.1 = final.1 ∧ ran.2.chain = final.2.chain ∧
      written final.2.events = written events ++ written ran.2.events ∧
      final.2.trace.shows = s.trace.shows := by
  intro ran final
  obtain ⟨u, hu, hshows⟩ := started_write (Stmt.toValues ss).length s.trace
  obtain ⟨hresult, hchain, hwritten⟩ := executeProgram_eq hss (w := ⟨chain, #[], s.trace⟩) hu
  obtain ⟨added, hevents, -, hagain⟩ := (hasHistory_executeAll (Stmt.toValues ss)).again chain
    (#[].push (.started (Stmt.toValues ss).length)) events (ht.trans hshows.symm)
  have hfinal : executeAll (Stmt.toValues ss) ⟨chain, events, t⟩ = final := rfl
  rw [hfinal] at hagain
  rw [hagain]
  refine ⟨hresult, hchain, ?_, ht⟩
  change _ = _ ++ written (executeProgram (Stmt.toValues ss) ⟨chain, #[], s.trace⟩).2.events
  rw [hwritten, hevents]
  simp [written, Event.output]

/-- The run of the statements of a source text on the global variables. -/
def ranSource (s : Session) (source : String) : Except Fault Unit × World :=
  s.ran (Stmt.toValues (statementsOf source)) [s.globals]

theorem runSource_leaves (s : Session) (source : String) :
    s.runSource source = (ending (s.ranSource source).1,
      { globals := (s.ranSource source).2.chain.head?.getD {}
        report := s.report.addAll
          ((readSource source).diagnostics ++ problems (s.ranSource source).1)
        output := s.output ++ written (s.ranSource source).2.events
        trace := (s.ranSource source).2.trace }) := by
  rw [runSource_eq, interpret_eq, ← Report.addAll_addAll]
  rfl

/-- Two runs of the same program from one session, of which the second names lines further down in
the problems it adds. -/
structure Matches (k : Nat) (s : Session) (parts whole : Ending × Session) : Prop where
  ending : whole.1 = parts.1
  globals : whole.2.globals = parts.2.globals
  output : whole.2.output = parts.2.output
  report : ∃ ds, parts.2.report = s.report.addAll ds ∧
    whole.2.report = s.report.addAll (ds.map (·.down k))

theorem Matches.trans {k k' : Nat} {s s' : Session} {r₁ r₂ r₃ : Ending × Session}
    (h : Matches k s r₁ r₂) (hs : s.report = s'.report) (h' : Matches k' s' r₂ r₃) :
    Matches (k' + k) s' r₁ r₃ := by
  obtain ⟨ds, hds₁, hds₂⟩ := h.report
  obtain ⟨ds', hds₂', hds₃⟩ := h'.report
  have hmiddle : ds' = ds.map (·.down k) := by
    have happend := congrArg Report.diagnostics (hds₂'.symm.trans hds₂)
    rw [hs] at happend
    exact List.append_cancel_left happend
  refine ⟨h'.ending.trans h.ending, h'.globals.trans h.globals, h'.output.trans h.output, ds,
    hs ▸ hds₁, ?_⟩
  rw [hds₃, hmiddle, List.map_map]
  simp only [Function.comp_def, Diagnostic.down_down]

/-! Source texts one after the other, and at once. -/

end Session

end LoxLang
