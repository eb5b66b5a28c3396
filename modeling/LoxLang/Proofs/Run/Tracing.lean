import LoxLang.Proofs.Run.Legibility
import LoxLang.Proofs.Run.Piecewise
import LoxLang.Tree.File

/-!
Traced sessions.

All that tracing can do to a session is to break a program off, at a line that is due and holds half
a pair. Apart from that, what a session prints, reports and computes does not depend on how closely
it is traced, nor on notes in the trace, nor on the trace being closed or the report being reset in
between; and a program whose literals and names are legible is never broken off. A trace of a lower
level is made of messages of any trace of a higher level, and a closed one stays as it is.
-/
namespace LoxLang.Session

open Run

/-- What can be done with a session. -/
inductive Step where
  | run (source : String)
  | runTree (text : String)
  | reset
  | close
  | note (message : Text)

namespace Step

def isRun : Step → Bool
  | .run _ | .runTree _ => true
  | .reset | .close | .note _ => false

def closes : Step → Bool
  | .close => true
  | .run _ | .runTree _ | .reset | .note _ => false

/-- A step that runs no tree but such with legible literals and names. -/
def isTraceable : Step → Bool
  | .runTree text =>
    match TreeFile.read text with
    | .error _ => true
    | .ok statements => Value.allTraceable statements
  | .run _ | .reset | .close | .note _ => true

end Step

/-- What comes of a program: a text that holds no tree, or a run with its ending. -/
abbrev Answer := Except TreeFile.Error Ending

/-- A note that cannot be written leaves the session as it is. -/
def step (s : Session) : Step → Option Answer × Session
  | .run source => (s.runSource source).map (some ∘ .ok) id
  | .runTree text =>
    match TreeFile.read text with
    | .error e => (some (.error e), s)
    | .ok statements => (s.interpret statements).map (some ∘ .ok) id
  | .reset => (none, s.reset)
  | .close => (none, s.close)
  | .note message => (none, (s.debug message).toOption.getD s)

/-- The session after some steps. -/
def after (s : Session) (steps : List Step) : Session :=
  steps.foldl (fun s step => (s.step step).2) s

/-- What is seen of a session after a program was run in it. -/
structure Sight where
  answer : Answer
  output : Text
  errors : Text
  globals : Scope

/-- The program was broken off, for a line of the trace could not be written. -/
def Sight.isBrokenOff (sight : Sight) : Bool :=
  match sight.answer with
  | .ok (.error (.breakdown (.unwritable _))) => true
  | _ => false

def sight (s : Session) (answer : Answer) : Sight :=
  ⟨answer, s.output, s.report.written, s.globals⟩

/-- What is seen in turn, after each step that runs a program. -/
def sights (s : Session) : List Step → List Sight
  | [] => []
  | step :: steps =>
    let (answer, s) := s.step step
    (answer.map s.sight).toList ++ s.sights steps

/-- No program is broken off. -/
def Undisturbed (s : Session) (steps : List Step) : Prop :=
  ∀ sight ∈ s.sights steps, ¬ sight.isBrokenOff

instance (s : Session) (steps : List Step) : Decidable (s.Undisturbed steps) :=
  inferInstanceAs (Decidable (∀ sight ∈ s.sights steps, ¬ sight.isBrokenOff))

/-- What happens while statements run on the global variables and nothing is traced. -/
def happenings (s : Session) (vs : List Value) : List Event :=
  (executeProgram vs ⟨[s.globals], #[], .start 0⟩).2.events.toList

/-- The statements that a step runs and the problems in reading them, if it comes to running. -/
def Step.program? : Step → Option (List Value × List Diagnostic)
  | .run source => some (Stmt.toValues (statementsOf source), (readSource source).diagnostics)
  | .runTree text =>
    match TreeFile.read text with
    | .error _ => none
    | .ok statements => some (statements, [])
  | .reset | .close | .note _ => none

/-- The note of a step that runs nothing. -/
def Step.notes : Step → List Event
  | .note message => [.note message]
  | .run _ | .runTree _ | .reset | .close => []

/-- What happens in a step, as far as it gets. -/
def eventsOf (s : Session) (step : Step) : List Event :=
  match step.program? with
  | some (vs, _) => (s.ran vs [s.globals]).2.events.toList
  | none => step.notes

/-- The messages of a step. -/
def messagesOf (s : Session) (step : Step) : List String :=
  s.trace.messages (s.eventsOf step)

/-- The messages written to the trace in turn. -/
def messages (s : Session) : List Step → List String
  | [] => []
  | step :: steps => s.messagesOf step ++ (s.step step).2.messages steps

variable {s s' : Session} {action : Step} {vs : List Value} {ds : List Diagnostic}

/-! What a step does. -/

theorem step_of_program (h : action.program? = some (vs, ds)) (s : Session) :
    s.step action = (some (.ok (ending (s.ran vs [s.globals]).1)),
      { globals := (s.ran vs [s.globals]).2.chain.head?.getD {}
        report := s.report.addAll (ds ++ problems (s.ran vs [s.globals]).1)
        output := s.output ++ written (s.ran vs [s.globals]).2.events
        trace := (s.ran vs [s.globals]).2.trace }) := by
  cases action with
  | run source =>
    cases h
    rw [Session.step, runSource_leaves]
    rfl
  | runTree text =>
    rw [Step.program?] at h
    rw [Session.step]
    split at h
    · cases h
    · cases h
      simp only [interpret_eq]
      rfl
  | reset | close | note => cases h

/-- The sessions differ in their traces and in what a reset takes from a report, if at all. -/
structure Agrees (s s' : Session) : Prop where
  globals : s'.globals = s.globals
  output : s'.output = s.output
  written : s'.report.written = s.report.written

/-- A step that runs nothing answers the same in all sessions, and changes nothing that is seen. -/
theorem step_of_none (h : action.program? = none) (s s' : Session) :
    (s'.step action).1 = (s.step action).1 ∧ Agrees s (s.step action).2 := by
  cases action with
  | run source => cases h
  | runTree text =>
    rw [Step.program?] at h
    split at h
    · next hread =>
      rw [Session.step, Session.step, hread]
      exact ⟨rfl, rfl, rfl, rfl⟩
    · cases h
  | reset | close => exact ⟨rfl, rfl, rfl, rfl⟩
  | note message =>
    refine ⟨rfl, ?_⟩
    change Agrees s ((s.debug message).toOption.getD s)
    rw [debug]
    cases s.trace.write (.note message) <;> exact ⟨rfl, rfl, rfl⟩

theorem step_idle (h : ¬ action.isRun) : action.program? = none ∧ (s.step action).1 = none := by
  cases action with
  | run | runTree => exact absurd rfl h
  | reset | close | note => exact ⟨rfl, rfl⟩

/-! Programs that are broken off. -/

theorem sight_isBrokenOff_iff {result : Except Fault Unit} :
    (s.sight (.ok (ending result))).isBrokenOff ↔ BrokenOff result := by
  rcases result with (e | b) | u
  · exact ⟨nofun, nofun⟩
  · cases b with
    | unwritable r => exact ⟨fun _ => ⟨r, rfl⟩, fun _ => rfl⟩
    | misfit | zeroDivision => exact ⟨nofun, nofun⟩
  · exact ⟨nofun, nofun⟩

theorem undisturbed_nil (s : Session) : s.Undisturbed [] :=
  List.forall_mem_nil _

theorem undisturbed_cons {steps : List Step} :
    s.Undisturbed (action :: steps) ↔ s.Undisturbed [action] ∧ (s.step action).2.Undisturbed steps := by
  simp only [Undisturbed, sights, List.append_nil, List.forall_mem_append]

theorem undisturbed_of_program (h : action.program? = some (vs, ds)) :
    s.Undisturbed [action] ↔ ¬ BrokenOff (s.ran vs [s.globals]).1 := by
  rw [Undisturbed, sights, step_of_program h]
  exact List.forall_mem_singleton.trans sight_isBrokenOff_iff.not

theorem undisturbed_of_none (h : action.program? = none) : s.Undisturbed [action] := by
  cases action with
  | run source => cases h
  | runTree text =>
    rw [Step.program?] at h
    split at h
    · next hread =>
      rw [Undisturbed, sights, Session.step, hread]
      exact List.forall_mem_singleton.mpr nofun
    · cases h
  | reset | close | note => exact List.forall_mem_nil _

/-- How far a program gets, by what happens in it without a trace. -/
theorem ran_traced (s : Session) (vs : List Value) :
    (s.ran vs [s.globals]).2.events.toList = (s.happenings vs).takeWhile s.trace.admits ∧
    (BrokenOff (s.ran vs [s.globals]).1 ↔
      ∃ e ∈ s.happenings vs, s.trace.shows e ∧ ¬ e.text.isWhole) := by
  obtain ⟨hevents, hbroken, -⟩ := (hasHistory_executeProgram vs).traced [s.globals] s.trace
  refine ⟨hevents, hbroken.trans ?_⟩
  simp only [happenings, Array.mem_toList_iff, Trace.admits_iff, Classical.not_imp]

/-- Programs that are not broken off come to the same on the same global variables. -/
theorem ran_eq_of_unbroken (hglobals : s'.globals = s.globals)
    (h : ¬ BrokenOff (s.ran vs [s.globals]).1) (h' : ¬ BrokenOff (s'.ran vs [s'.globals]).1) :
    (s'.ran vs [s'.globals]).1 = (s.ran vs [s.globals]).1 ∧
    (s'.ran vs [s'.globals]).2.chain = (s.ran vs [s.globals]).2.chain ∧
    (s'.ran vs [s'.globals]).2.events = (s.ran vs [s.globals]).2.events := by
  rw [hglobals] at h' ⊢
  obtain ⟨-, -, hsame⟩ := (hasHistory_executeProgram vs).traced [s.globals] s.trace
  obtain ⟨-, -, hsame'⟩ := (hasHistory_executeProgram vs).traced [s.globals] s'.trace
  obtain ⟨hresult, hchain, hevents⟩ := hsame h
  obtain ⟨hresult', hchain', hevents'⟩ := hsame' h'
  exact ⟨hresult'.trans hresult.symm, hchain'.trans hchain.symm, hevents'.trans hevents.symm⟩

/-! Sessions that look alike. -/

theorem Agrees.symm (h : Agrees s s') : Agrees s' s :=
  ⟨h.globals.symm, h.output.symm, h.written.symm⟩

theorem Agrees.trans {s'' : Session} (h : Agrees s s') (h' : Agrees s' s'') : Agrees s s'' :=
  ⟨h'.globals.trans h.globals, h'.output.trans h.output, h'.written.trans h.written⟩

theorem Agrees.sight (h : Agrees s s') (answer : Answer) : s'.sight answer = s.sight answer := by
  rw [Session.sight, Session.sight, h.globals, h.output, h.written]

theorem Agrees.step (h : Agrees s s') (hs : s.Undisturbed [action]) (hs' : s'.Undisturbed [action]) :
    (s'.step action).1 = (s.step action).1 ∧ Agrees (s.step action).2 (s'.step action).2 := by
  cases hprogram : action.program? with
  | none =>
    obtain ⟨hanswer, hafter⟩ := step_of_none hprogram s s'
    obtain ⟨-, hafter'⟩ := step_of_none hprogram s' s
    exact ⟨hanswer, (hafter.symm.trans h).trans hafter'⟩
  | some program =>
    obtain ⟨vs, ds⟩ := program
    obtain ⟨hresult, hchain, hevents⟩ := ran_eq_of_unbroken h.globals
      ((undisturbed_of_program hprogram).mp hs) ((undisturbed_of_program hprogram).mp hs')
    rw [step_of_program hprogram, step_of_program hprogram, hresult]
    refine ⟨rfl, ?_, ?_, ?_⟩
    · rw [hchain]
    · rw [hevents, h.output]
    · exact congrArg (· ++ _) h.written

/-- Undisturbed sessions show the same, with or without the steps that run nothing. -/
theorem Agrees.sights (h : Agrees s s') {steps : List Step} (hs : s.Undisturbed steps)
    (hs' : s'.Undisturbed (steps.filter Step.isRun)) :
    s.sights steps = s'.sights (steps.filter Step.isRun) := by
  induction steps generalizing s s' with
  | nil => rfl
  | cons action steps ih =>
    obtain ⟨hstep, hsteps⟩ := undisturbed_cons.mp hs
    by_cases hrun : action.isRun
    · rw [List.filter_cons_of_pos hrun] at hs' ⊢
      obtain ⟨hstep', hsteps'⟩ := undisturbed_cons.mp hs'
      obtain ⟨hanswer, hagrees⟩ := h.step hstep hstep'
      have hsight : (s'.step action).2.sight = (s.step action).2.sight := funext hagrees.sight
      rw [Session.sights, Session.sights]
      simp only [hanswer, hsight, ih hagrees hsteps hsteps']
    · rw [List.filter_cons_of_neg hrun] at hs' ⊢
      obtain ⟨hprogram, hanswer⟩ := step_idle (s := s) hrun
      have hagrees : Agrees (s.step action).2 s' := (step_of_none hprogram s s').2.symm.trans h
      rw [Session.sights]
      simp only [hanswer, ih hagrees hsteps hs']
      rfl

/-! Programs that are never broken off. -/

theorem ran_trace (s : Session) (vs : List Value) (chain : Chain) :
    (s.ran vs chain).2.trace = s.trace.record (s.ran vs chain).2.events.toList := by
  obtain ⟨added, hevents, htrace, -⟩ :=
    (hasHistory_executeProgram vs).again chain #[] #[] (t := s.trace) rfl
  have hadded : (s.ran vs chain).2.events.toList = added := by
    rw [ran, hevents]
    simp
  rw [hadded]
  exact htrace

/-- A note is written, or it is due and ragged and adds nothing. -/
theorem note_trace (s : Session) (message : Text) :
    (s.step (.note message)).2.trace = s.trace.record [.note message] := by
  change ((s.debug message).toOption.getD s).trace = _
  by_cases hadmits : s.trace.admits (.note message)
  · rw [debug, Trace.write_of_admits hadmits]
    rfl
  · obtain ⟨hdue, hragged⟩ := Classical.not_imp.mp (Trace.admits_iff.not.mp hadmits)
    change ¬ message.isWhole at hragged
    cases message with
    | whole line => exact absurd rfl hragged
    | ragged r =>
      rw [debug, Trace.write_of_ragged hdue rfl]
      change s.trace = _
      simp [Trace.record, Trace.messages, hdue, Event.text, Text.whole?, Trace.lines]

theorem step_trace (s : Session) (action : Step) :
    (s.step action).2.trace = { s.trace.record (s.eventsOf action) with
      isOpen := s.trace.isOpen && !action.closes } := by
  -- apart from closing, a step does to the trace what its events do
  have hopen (events : List Event) : s.trace.record events = { s.trace.record events with
      isOpen := s.trace.isOpen && !false } := by
    rw [Bool.not_false, Bool.and_true]
    rfl
  cases hprogram : action.program? with
  | some program =>
    obtain ⟨vs, ds⟩ := program
    have hcloses : action.closes = false := by
      cases action with
      | close => cases hprogram
      | _ => rfl
    rw [step_of_program hprogram, eventsOf, hprogram, hcloses]
    exact (s.ran_trace vs _).trans (hopen _)
  | none =>
    rw [eventsOf, hprogram]
    cases action with
    | run source => cases hprogram
    | runTree text =>
      rw [Step.program?] at hprogram
      split at hprogram
      · next hread =>
        rw [Session.step, hread]
        exact (Trace.record_nil _).symm.trans (hopen [])
      · cases hprogram
    | reset => exact (Trace.record_nil _).symm.trans (hopen [])
    | close =>
      change s.trace.close = _
      simp [Trace.close, Trace.record, Trace.messages, Trace.lines, Step.closes, Step.notes]
    | note message => exact (s.note_trace message).trans (hopen _)

/-- Two sessions that look alike, the second of which is traced at least as closely. -/
structure Below (s s' : Session) : Prop extends Agrees s s' where
  level : s.trace.level ≤ s'.trace.level
  isOpen : s.trace.isOpen → s'.trace.isOpen

theorem Below.shows (h : Below s s') (e : Event) (he : s.trace.shows e) : s'.trace.shows e := by
  obtain ⟨hopen, hlevel⟩ := Bool.and_eq_true_iff.mp he
  exact Bool.and_eq_true_iff.mpr
    ⟨h.isOpen hopen, decide_eq_true (Int.le_trans (of_decide_eq_true hlevel) h.level)⟩

theorem Below.undisturbed (h : Below s s') (hs' : s'.Undisturbed [action]) : s.Undisturbed [action] := by
  cases hprogram : action.program? with
  | none => exact undisturbed_of_none hprogram
  | some program =>
    rw [undisturbed_of_program hprogram, (ran_traced _ _).2] at hs' ⊢
    rintro ⟨e, he, hdue, hragged⟩
    rw [happenings, h.globals] at hs'
    exact hs' ⟨e, he, h.shows e hdue, hragged⟩

theorem Below.step (h : Below s s') (hs' : s'.Undisturbed [action]) :
    Below (s.step action).2 (s'.step action).2 := by
  refine ⟨(h.toAgrees.step (h.undisturbed hs') hs').2, ?_, ?_⟩
  · rw [step_trace, step_trace]
    exact h.level
  · rw [step_trace, step_trace]
    simpa using fun hopen hcloses => ⟨h.isOpen hopen, hcloses⟩

theorem Below.messagesOf (h : Below s s') (hs' : s'.Undisturbed [action]) :
    (s.messagesOf action).Sublist (s'.messagesOf action) := by
  have hevents : s'.eventsOf action = s.eventsOf action := by
    cases hprogram : action.program? with
    | none => simp only [eventsOf, hprogram]
    | some program =>
      obtain ⟨-, -, hevents⟩ := ran_eq_of_unbroken h.globals
        ((undisturbed_of_program hprogram).mp (h.undisturbed hs'))
        ((undisturbed_of_program hprogram).mp hs')
      simp only [eventsOf, hprogram, hevents]
  rw [Session.messagesOf, Session.messagesOf, hevents]
  exact (List.monotone_filter_right _ h.shows).filterMap _

theorem Below.messages (h : Below s s') {steps : List Step} (hs' : s'.Undisturbed steps) :
    s.Undisturbed steps ∧ (s.messages steps).Sublist (s'.messages steps) := by
  induction steps generalizing s s' with
  | nil => exact ⟨s.undisturbed_nil, List.Sublist.refl _⟩
  | cons action steps ih =>
    obtain ⟨hstep', hsteps'⟩ := undisturbed_cons.mp hs'
    obtain ⟨hsteps, hmessages⟩ := ih (h.step hstep') hsteps'
    exact ⟨undisturbed_cons.mpr ⟨h.undisturbed hstep', hsteps⟩,
      (h.messagesOf hstep').append hmessages⟩

end LoxLang.Session
