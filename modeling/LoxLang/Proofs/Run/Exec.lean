import LoxLang.Run.Exec
import LoxLang.Tree.Basic

/-!
Laws of running.

What each primitive of a run does to a world. An event is all that can break on the trace, and of a
trace only the events that are due matter for that, never what was written so far.
-/
namespace LoxLang

/-- A value that is printed as a whole text, which a trace can show. -/
def Value.isLegible (v : Value) : Bool :=
  v.printed.isWhole

theorem Value.isLegible_of_isLox {v : Value} (h : v.isLox) : v.isLegible := by
  cases v with
  | string s =>
    cases s with
    | whole s => rfl
    | ragged r => cases h
  | nil => rfl
  | bool b => cases b <;> rfl
  | number x => rfl
  | _ => cases h

end LoxLang

namespace LoxLang.Run

/-! Events that show a value -/

theorem isWhole_printed (v : Value) : (Event.printed v).text.isWhole = v.isLegible := by
  simp [Event.text, Value.isLegible]

theorem isWhole_assigned (name : String) (v : Value) :
    (Event.assigned (.string name) v).text.isWhole = v.isLegible := by
  simp [Event.text, Value.text, Value.isLegible]

theorem isWhole_declared (name : String) (v : Value) :
    (Event.declared (.string name) v).text.isWhole = v.isLegible := by
  simp [Event.text, Value.text, Value.isLegible]

/-! Traces -/

namespace Trace

/-- Whether events that show a value are due. -/
def isLoud (t : Trace) : Bool :=
  t.isOpen && decide (2 ≤ t.level)

theorem isLoud_eq_of_shows {t u : Trace} (h : u.shows = t.shows) : u.isLoud = t.isLoud :=
  congrFun h (.assigned .nil .nil)

theorem isLoud_of_shows {t : Trace} {e : Event} (he : 2 ≤ e.level) (h : t.shows e) : t.isLoud := by
  obtain ⟨hopen, hlevel⟩ := Bool.and_eq_true_iff.mp h
  exact Bool.and_eq_true_iff.mpr ⟨hopen, decide_eq_true (Int.le_trans he (of_decide_eq_true hlevel))⟩

theorem write_of_not_shows {t : Trace} {e : Event} (h : ¬ t.shows e) : t.write e = .ok t :=
  if_neg h

theorem write_of_whole {t : Trace} {e : Event} {line : String} (hshows : t.shows e)
    (h : e.text = line) :
    t.write e = .ok { t with text := t.text.map fun file => file ++ line ++ "\n" } := by
  rw [write, if_pos hshows, h]

theorem write_of_ragged {t : Trace} {e : Event} {r : Ragged} (hshows : t.shows e)
    (h : e.text = .ragged r) : t.write e = .error r := by
  rw [write, if_pos hshows, h]

/-- An event is written or not due, and then the same events are due as before, or it is due and
ragged. -/
theorem write_cases (t : Trace) (e : Event) :
    (∃ u, t.write e = .ok u ∧ u.shows = t.shows ∧ (t.shows e → e.text.isWhole)) ∨
      ∃ r, t.write e = .error r ∧ t.shows e ∧ e.text = .ragged r := by
  by_cases hshows : t.shows e
  · cases htext : e.text with
    | whole line => exact .inl ⟨_, write_of_whole hshows htext, rfl, fun _ => rfl⟩
    | ragged r => exact .inr ⟨r, write_of_ragged hshows htext, hshows, rfl⟩
  · exact .inl ⟨t, write_of_not_shows hshows, rfl, fun h => absurd h hshows⟩

theorem write_ok {t : Trace} {e : Event} (h : t.shows e → e.text.isWhole) :
    ∃ u, t.write e = .ok u ∧ u.shows = t.shows := by
  obtain ⟨u, hu, hshows, -⟩ | ⟨r, -, hshows, hr⟩ := t.write_cases e
  · exact ⟨u, hu, hshows⟩
  · have hwhole := h hshows
    rw [hr] at hwhole
    cases hwhole

/-- Of two events that are due alike and ragged alike, both can be written or none. -/
theorem write_both {t t' : Trace} {e e' : Event} (hshows : t'.shows e' = t.shows e)
    (hwhole : e'.text.isWhole = e.text.isWhole) :
    (∃ u u', t.write e = .ok u ∧ t'.write e' = .ok u' ∧ u.shows = t.shows ∧ u'.shows = t'.shows) ∨
      ∃ r r', t.write e = .error r ∧ t'.write e' = .error r' ∧
        e.text = .ragged r ∧ e'.text = .ragged r' ∧ t.shows e := by
  obtain ⟨u, hu, hushows, hadmits⟩ | ⟨r, hr, hdue, htext⟩ := t.write_cases e
  · obtain ⟨u', hu', hushows'⟩ := write_ok (t := t') (e := e') (by rw [hshows, hwhole]; exact hadmits)
    exact .inl ⟨u, u', hu, hu', hushows, hushows'⟩
  · obtain ⟨-, -, -, hadmits⟩ | ⟨r', hr', -, htext'⟩ := t'.write_cases e'
    · rw [hshows, hwhole, htext] at hadmits
      cases hadmits hdue
    · exact .inr ⟨r, r', hr, hr', htext, htext', hdue⟩

/-- The same event is written to both of two traces on which it is due alike, or to none. -/
theorem write_same {t t' : Trace} (h : t'.shows = t.shows) (e : Event) :
    (∃ u u', t.write e = .ok u ∧ t'.write e = .ok u' ∧ u'.shows = u.shows ∧ u.shows = t.shows) ∨
      ∃ r, t.write e = .error r ∧ t'.write e = .error r ∧ e.text = .ragged r ∧ t.shows e := by
  obtain ⟨u, u', hu, hu', hshows, hshows'⟩ | ⟨r, r', hr, hr', htext, htext', hdue⟩ :=
    write_both (congrFun h e) (e := e) rfl
  · exact .inl ⟨u, u', hu, hu', by rw [hshows, hshows', h], hshows⟩
  · cases htext.symm.trans htext'
    exact .inr ⟨r, hr, hr', htext, hdue⟩

end Trace

/-! What events print -/

theorem written_push (events : Array Event) (e : Event) :
    written (events.push e) = written events ++ e.output := by
  simp [written]

theorem written_push_of_silent (events : Array Event) {e : Event} (h : e.output = "") :
    written (events.push e) = written events := by
  rw [written_push, h, Text.append_empty]

variable {α β : Type}

/-- The trace could not be written. -/
def BrokenOff (result : Except Fault α) : Prop :=
  ∃ r, result = .error (.breakdown (.unwritable r))

theorem not_brokenOff_ok (a : α) : ¬ BrokenOff (.ok a) :=
  nofun

theorem not_brokenOff_runtime (e : RuntimeError) :
    ¬ BrokenOff (.error (.runtime e) : Except Fault α) :=
  nofun

theorem not_brokenOff_misfit (m : Misfit) :
    ¬ BrokenOff (.error (.breakdown (.misfit m)) : Except Fault α) :=
  nofun

/-! Primitives -/

theorem bind_apply (m : Exec α) (f : α → Exec β) (w : World) :
    (m >>= f) w = match m w with
      | (.ok a, w') => f a w'
      | (.error e, w') => (.error e, w') := by
  simp only [bind, ExceptT.bind, ExceptT.mk, StateT.bind, ExceptT.bindCont]
  rcases m w with ⟨_ | a, w'⟩ <;> rfl

theorem happen_apply (e : Event) (w : World) :
    happen e w = match w.trace.write e with
      | .ok trace => (.ok (), ⟨w.chain, w.events.push e, trace⟩)
      | .error text => (.error (.breakdown (.unwritable text)), w) := by
  change (match w.trace.write e with
    | .ok trace => (set { w with events := w.events.push e, trace } : Exec Unit)
    | .error text => throw (Fault.breakdown (.unwritable text))) w = _
  cases w.trace.write e <;> rfl

theorem happen_of_ok {e : Event} {w : World} {trace : Trace} (h : w.trace.write e = .ok trace) :
    happen e w = (.ok (), ⟨w.chain, w.events.push e, trace⟩) := by
  rw [happen_apply, h]

theorem happen_of_error {e : Event} {w : World} {r : Ragged} (h : w.trace.write e = .error r) :
    happen e w = (.error (.breakdown (.unwritable r)), w) := by
  rw [happen_apply, h]

theorem lookup_eq (v : Value) : lookup v = ofExcept (asName v) >>= fun p w =>
    match w.chain.find? p.2 with
      | some value => (.ok value, w)
      | none => (.error (.runtime (.undefined p.1)), w) := by
  refine congrArg (ofExcept (asName v) >>= ·) ?_
  funext p w
  change (match w.chain.find? p.2 with
    | some value => (pure value : Exec Value)
    | none => throw (Fault.runtime (.undefined p.1))) w = _
  cases w.chain.find? p.2 <;> rfl

theorem assign_eq (v value : Value) : assign v value = ofExcept (asName v) >>= fun p w =>
    match w.chain.assign? p.2 value with
      | some chain => happen (.assigned p.2 value) { w with chain }
      | none => (.error (.runtime (.undefined p.1)), w) := by
  refine congrArg (ofExcept (asName v) >>= ·) ?_
  funext p w
  change (match w.chain.assign? p.2 value with
    | some chain => (do
        modify fun w : World => { w with chain }
        happen (.assigned p.2 value) : Exec Unit)
    | none => throw (Fault.runtime (.undefined p.1))) w = _
  cases w.chain.assign? p.2 value <;> rfl

theorem define_eq (v value : Value) : define v value = ofExcept (asName v) >>= fun p w =>
    happen (.declared p.2 value) { w with chain := w.chain.define p.2 value } :=
  rfl

theorem lookup_apply (t : Token) (w : World) :
    lookup t.toValue w = match w.chain.find? (.string t.lexeme) with
      | some v => (.ok v, w)
      | none => (.error (.runtime (.undefined t.loose)), w) := by
  rw [lookup_eq]
  rfl

theorem assign_apply (t : Token) (v : Value) (w : World) :
    assign t.toValue v w = match w.chain.assign? (.string t.lexeme) v with
      | some chain => happen (.assigned (.string t.lexeme) v) { w with chain }
      | none => (.error (.runtime (.undefined t.loose)), w) := by
  rw [assign_eq]
  rfl

theorem define_apply (t : Token) (v : Value) (w : World) :
    define t.toValue v w = happen (.declared (.string t.lexeme) v)
      { w with chain := w.chain.define (.string t.lexeme) v } :=
  rfl

theorem inNewScope_apply (body : Exec Unit) (w : World) :
    inNewScope body w = ((body { w with chain := {} :: w.chain }).1,
      { (body { w with chain := {} :: w.chain }).2 with
        chain := (body { w with chain := {} :: w.chain }).2.chain.tail }) :=
  rfl

/-- No expression is kept as nil, so an initializer that is there is always evaluated. -/
theorem initialValue_toValue (e : Expr) : initialValue e.toValue = evaluate e.toValue := by
  cases e <;> rfl

/-- The line on the number of statements can always be written. -/
theorem started_write (n : Nat) (t : Trace) :
    ∃ u, t.write (.started n) = .ok u ∧ u.shows = t.shows :=
  Trace.write_ok fun _ => rfl

theorem tryCatch_apply (m : Exec α) (handle : Fault → Exec α) (w : World) :
    tryCatch m handle w = match m w with
      | (.ok a, w') => (.ok a, w')
      | (.error fault, w') => handle fault w' := by
  simp only [tryCatch, tryCatchThe, MonadExceptOf.tryCatch, ExceptT.tryCatch, ExceptT.mk, bind,
    StateT.bind]
  rcases m w with ⟨_ | a, w'⟩ <;> rfl

/-- A program does what its statements do, and passes on the fault that stops them. -/
theorem executeProgram_apply {vs : List Value} {w : World} {trace : Trace}
    (h : w.trace.write (.started vs.length) = .ok trace) :
    executeProgram vs w =
      match executeAll vs ⟨w.chain, w.events.push (.started vs.length), trace⟩ with
      | (.ok a, w') => (.ok a, w')
      | (.error fault, w') => passOn fault w' := by
  rw [executeProgram, bind_apply, happen_of_ok h]
  change tryCatch (executeAll vs) passOn _ = _
  rw [tryCatch_apply]
  rcases executeAll vs _ with ⟨_ | _, w'⟩ <;> rfl

theorem passOn_runtime (e : RuntimeError) (w : World) :
    passOn (.runtime e) w = match happen (.failed e.token.line e.message) w with
      | (.ok _, w') => (.error (.runtime e), w')
      | (.error fault, w') => (.error fault, w') := by
  rw [passOn, bind_apply]
  rcases happen (.failed e.token.line e.message) w with ⟨_ | _, w'⟩ <;> rfl

end LoxLang.Run
