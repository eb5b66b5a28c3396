import LoxLang.Proofs.Run.Safety

/-!
Histories.

What a run does is one history, whatever happened before and however closely it is traced: events,
each with the scopes that are left if the run ends there, and an end. The trace only decides how far
the history goes. It breaks off at the first event that is due and ragged.
-/
namespace LoxLang

/-- The string that a text is if it is whole. -/
def Text.whole? : Text → Option String
  | .whole s => some s
  | .ragged _ => none

end LoxLang

namespace LoxLang.Run

namespace Trace

/-- Whether an event can be traced, be it that it is not due. -/
def admits (t : Trace) (e : Event) : Bool :=
  !t.shows e || e.text.isWhole

theorem admits_iff {t : Trace} {e : Event} : t.admits e ↔ (t.shows e → e.text.isWhole) := by
  cases h : t.shows e <;> simp [admits, h]

/-- Messages as they stand in a trace, one after the other. -/
def lines (messages : List String) : String :=
  String.join (messages.map (· ++ "\n"))

theorem lines_append (messages messages' : List String) :
    lines (messages ++ messages') = lines messages ++ lines messages' := by
  simp [lines]

/-- The messages of those events that are due. -/
def messages (t : Trace) (events : List Event) : List String :=
  (events.filter t.shows).filterMap fun e => e.text.whole?

/-- The trace after events that can be traced. -/
def record (t : Trace) (events : List Event) : Trace :=
  { t with text := t.text.map (· ++ lines (t.messages events)) }

theorem record_nil (t : Trace) : t.record [] = t := by
  simp [record, messages, lines]

theorem write_of_admits {t : Trace} {e : Event} (h : t.admits e) : t.write e = .ok (t.record [e]) := by
  by_cases hshows : t.shows e
  · obtain ⟨line, hline⟩ := Text.isWhole_iff.mp (admits_iff.mp h hshows)
    rw [write_of_whole hshows hline]
    simp [record, messages, hshows, hline, lines, Text.whole?, String.append_assoc]
  · rw [write_of_not_shows hshows]
    simp [record, messages, hshows, lines]

theorem record_append (t : Trace) (events events' : List Event) :
    (t.record events).record events' = t.record (events ++ events') := by
  have hmessages : (t.record events).messages events' = t.messages events' := rfl
  rw [record, hmessages]
  simp [record, messages, lines_append, Function.comp_def, String.append_assoc]

end Trace

variable {α β : Type}

/-- The events of a run, each with the scopes that are left if it ends there, and the end, which is
not on the trace. -/
structure History (α : Type) where
  steps : List (Event × Chain)
  result : Except Fault α
  chain : Chain
  unbroken : ¬ BrokenOff result

namespace History

/-- Goes through events as far as they can be traced. -/
def follow (result : Except Fault α) (chain : Chain) :
    List (Event × Chain) → Array Event → Trace → Except Fault α × World
  | [], events, t => (result, ⟨chain, events, t⟩)
  | (e, left) :: steps, events, t =>
    match t.write e with
    | .ok u => follow result chain steps (events.push e) u
    | .error r => (.error (.breakdown (.unwritable r)), ⟨left, events, t⟩)

/-- The run after the given events, with the given trace. -/
def replay (h : History α) (events : Array Event) (t : Trace) : Except Fault α × World :=
  follow h.result h.chain h.steps events t

theorem follow_cons_of_ok {e : Event} {t u : Trace} (hu : t.write e = .ok u)
    (result : Except Fault α) (chain left : Chain) (steps : List (Event × Chain))
    (events : Array Event) :
    follow result chain ((e, left) :: steps) events t =
      follow result chain steps (events.push e) u := by
  rw [follow, hu]

theorem follow_cons_of_error {e : Event} {t : Trace} {r : Ragged} (hr : t.write e = .error r)
    (result : Except Fault α) (chain left : Chain) (steps : List (Event × Chain))
    (events : Array Event) :
    follow result chain ((e, left) :: steps) events t =
      (.error (.breakdown (.unwritable r)), ⟨left, events, t⟩) := by
  rw [follow, hr]

/-- All events can be traced, and the history goes to its end. -/
theorem follow_of_admits {steps : List (Event × Chain)} {t : Trace}
    (h : ∀ step ∈ steps, t.admits step.1) (result : Except Fault α) (chain : Chain)
    (events : Array Event) :
    follow result chain steps events t =
      (result, ⟨chain, events ++ steps.map (·.1), t.record (steps.map (·.1))⟩) := by
  induction steps generalizing events t with
  | nil =>
    rw [List.map_nil, Trace.record_nil]
    simp [follow]
  | cons step steps ih =>
    obtain ⟨e, left⟩ := step
    obtain ⟨he, hsteps⟩ := List.forall_mem_cons.mp h
    rw [follow_cons_of_ok (Trace.write_of_admits he), ih (t := t.record [e]) hsteps,
      Trace.record_append]
    simp

/-- The history goes up to the first event that cannot be traced. -/
theorem follow_of_ragged {steps : List (Event × Chain)} {t : Trace}
    (h : ∀ step ∈ steps, t.admits step.1) {e : Event} (hdue : t.shows e) {r : Ragged}
    (htext : e.text = .ragged r) (result : Except Fault α) (chain left : Chain)
    (later : List (Event × Chain)) (events : Array Event) :
    follow result chain (steps ++ (e, left) :: later) events t =
      (.error (.breakdown (.unwritable r)),
        ⟨left, events ++ steps.map (·.1), t.record (steps.map (·.1))⟩) := by
  induction steps generalizing events t with
  | nil =>
    rw [List.nil_append, follow_cons_of_error (Trace.write_of_ragged hdue htext), List.map_nil,
      Trace.record_nil]
    simp
  | cons step steps ih =>
    obtain ⟨e', left'⟩ := step
    obtain ⟨he, hsteps⟩ := List.forall_mem_cons.mp h
    rw [List.cons_append, follow_cons_of_ok (Trace.write_of_admits he),
      ih (t := t.record [e']) hsteps hdue, Trace.record_append]
    simp

/-- Either all events can be traced, or there is a first one that is due and ragged. -/
theorem admits_or_ragged (steps : List (Event × Chain)) (t : Trace) :
    (∀ step ∈ steps, t.admits step.1) ∨
      ∃ before e left later r, steps = before ++ (e, left) :: later ∧
        (∀ step ∈ before, t.admits step.1) ∧ t.shows e ∧ e.text = .ragged r := by
  induction steps with
  | nil => exact .inl nofun
  | cons step steps ih =>
    obtain ⟨e, left⟩ := step
    by_cases he : t.admits e
    · obtain hall | ⟨before, e', left', later, r, rfl, hbefore, hdue, htext⟩ := ih
      · exact .inl (List.forall_mem_cons.mpr ⟨he, hall⟩)
      · exact .inr ⟨(e, left) :: before, e', left', later, r, rfl,
          List.forall_mem_cons.mpr ⟨he, hbefore⟩, hdue, htext⟩
    · right
      rw [Trace.admits_iff, Classical.not_imp] at he
      cases htext : e.text with
      | whole line =>
        rw [htext] at he
        exact absurd rfl he.2
      | ragged r => exact ⟨[], e, left, steps, r, rfl, nofun, he.1, htext⟩

/-- What goes on from the end of a run and passes breakdowns on has the longer history. -/
theorem follow_append {result : Except Fault α} {chain : Chain}
    {next : Except Fault α × World → Except Fault β × World} {h : History β}
    (hpass : ∀ b w, next (.error (.breakdown b), w) = (.error (.breakdown b), w))
    (hnext : ∀ events t, next (result, ⟨chain, events, t⟩) = h.replay events t)
    (steps : List (Event × Chain)) (events : Array Event) (t : Trace) :
    next (follow result chain steps events t) =
      follow h.result h.chain (steps ++ h.steps) events t := by
  induction steps generalizing events t with
  | nil => exact hnext events t
  | cons step steps ih =>
    obtain ⟨e, left⟩ := step
    rw [List.cons_append]
    cases hwrite : t.write e with
    | ok u =>
      rw [follow_cons_of_ok hwrite, follow_cons_of_ok hwrite]
      exact ih (events.push e) u
    | error r =>
      rw [follow_cons_of_error hwrite, follow_cons_of_error hwrite]
      exact hpass (.unwritable r) _

theorem follow_tail (result : Except Fault α) (chain : Chain) (steps : List (Event × Chain))
    (events : Array Event) (t : Trace) :
    ((follow result chain steps events t).1, { (follow result chain steps events t).2 with
      chain := (follow result chain steps events t).2.chain.tail }) =
      follow result chain.tail (steps.map fun step => (step.1, step.2.tail)) events t := by
  induction steps generalizing events t with
  | nil => rfl
  | cons step steps ih =>
    obtain ⟨e, left⟩ := step
    rw [List.map_cons]
    cases hwrite : t.write e with
    | ok u =>
      rw [follow_cons_of_ok hwrite, follow_cons_of_ok hwrite]
      exact ih (events.push e) u
    | error r => rw [follow_cons_of_error hwrite, follow_cons_of_error hwrite]

end History

/-- From all scopes the computation has a history. -/
def HasHistory (m : Exec α) : Prop :=
  ∀ chain, ∃ h : History α, ∀ events t, m ⟨chain, events, t⟩ = h.replay events t

theorem hasHistory_ofExcept {x : Except Fault α} (hx : ¬ BrokenOff x) : HasHistory (ofExcept x) :=
  fun chain => ⟨⟨[], x, chain, hx⟩, fun _ _ => rfl⟩

theorem hasHistory_pure (a : α) : HasHistory (pure a : Exec α) :=
  hasHistory_ofExcept (not_brokenOff_ok a)

theorem hasHistory_throw {fault : Fault} (h : ¬ BrokenOff (.error fault : Except Fault α)) :
    HasHistory (throw fault : Exec α) :=
  hasHistory_ofExcept h

theorem hasHistory_misfit (m : Misfit) : HasHistory (throw (.breakdown (.misfit m)) : Exec α) :=
  hasHistory_throw (not_brokenOff_misfit m)

/-- What goes on from the end of a computation with a history and passes breakdowns on has one too,
if it has one from each end. -/
theorem HasHistory.append {m : Exec α} {m' : Exec β} (hm : HasHistory m)
    (next : Except Fault α × World → Except Fault β × World) (hm' : ∀ w, m' w = next (m w))
    (hpass : ∀ b w, next (.error (.breakdown b), w) = (.error (.breakdown b), w))
    (hnext : ∀ result, ¬ BrokenOff result → HasHistory (fun w => next (result, w) : Exec β)) :
    HasHistory m' := by
  intro chain
  obtain ⟨⟨steps, result, chain', hresult⟩, hsteps⟩ := hm chain
  obtain ⟨h, hh⟩ := hnext result hresult chain'
  refine ⟨⟨steps ++ h.steps, h.result, h.chain, h.unbroken⟩, fun events t => ?_⟩
  rw [hm', hsteps]
  exact History.follow_append hpass hh steps events t

theorem HasHistory.bind {m : Exec α} {f : α → Exec β} (hm : HasHistory m)
    (hf : ∀ a, HasHistory (f a)) : HasHistory (m >>= f) := by
  refine hm.append (fun
    | (.ok a, w) => f a w
    | (.error fault, w) => (.error fault, w)) (bind_apply m f) (fun _ _ => rfl) fun result h => ?_
  cases result with
  | ok a => exact hf a
  | error fault =>
    refine hasHistory_throw fun ⟨r, hr⟩ => h ⟨r, ?_⟩
    rw [Except.error.inj hr]

theorem hasHistory_happen (e : Event) : HasHistory (happen e) := by
  intro chain
  refine ⟨⟨[(e, chain)], .ok (), chain, not_brokenOff_ok ()⟩, fun events t => ?_⟩
  rw [happen_apply]
  rfl

theorem HasHistory.inNewScope {body : Exec Unit} (h : HasHistory body) :
    HasHistory (inNewScope body) := by
  intro chain
  obtain ⟨h, hh⟩ := h ({} :: chain)
  refine ⟨⟨h.steps.map fun step => (step.1, step.2.tail), h.result, h.chain.tail, h.unbroken⟩,
    fun events t => ?_⟩
  rw [inNewScope_apply, hh]
  exact History.follow_tail h.result h.chain h.steps events t

/-- What happened before does not matter, nor what the trace holds, as long as the same events are
due: the computation comes to the same, and the same is added to events and trace. -/
theorem HasHistory.again {m : Exec α} (hm : HasHistory m) (chain : Chain)
    (events events' : Array Event) {t t' : Trace} (ht : t'.shows = t.shows) :
    ∃ added : List Event,
      (m ⟨chain, events, t⟩).2.events = events ++ added ∧
      (m ⟨chain, events, t⟩).2.trace = t.record added ∧
      m ⟨chain, events', t'⟩ = ((m ⟨chain, events, t⟩).1,
        ⟨(m ⟨chain, events, t⟩).2.chain, events' ++ added, t'.record added⟩) := by
  have hadmits : t'.admits = t.admits := by
    unfold Trace.admits
    rw [ht]
  obtain ⟨⟨steps, result, left, _⟩, hsteps⟩ := hm chain
  rw [hsteps, hsteps]
  unfold History.replay
  obtain hall | ⟨before, e, left', later, r, rfl, hbefore, hdue, htext⟩ :=
    History.admits_or_ragged steps t
  · have hall' : ∀ step ∈ steps, t'.admits step.1 := hadmits ▸ hall
    rw [History.follow_of_admits hall, History.follow_of_admits hall']
    exact ⟨_, rfl, rfl, rfl⟩
  · have hbefore' : ∀ step ∈ before, t'.admits step.1 := hadmits ▸ hbefore
    rw [History.follow_of_ragged hbefore hdue htext,
      History.follow_of_ragged hbefore' (ht ▸ hdue) htext]
    exact ⟨_, rfl, rfl, rfl⟩

/-- Where a computation with a history gets to, by what happens in it if it is not traced. -/
theorem HasHistory.traced {m : Exec α} (hm : HasHistory m) (chain : Chain) (t : Trace) :
    let untraced := m ⟨chain, #[], .start 0⟩
    let traced := m ⟨chain, #[], t⟩
    traced.2.events.toList = untraced.2.events.toList.takeWhile t.admits ∧
    (BrokenOff traced.1 ↔ ∃ e ∈ untraced.2.events, ¬ t.admits e) ∧
    (¬ BrokenOff traced.1 → traced.1 = untraced.1 ∧ traced.2.chain = untraced.2.chain ∧
      traced.2.events = untraced.2.events) := by
  intro untraced traced
  obtain ⟨⟨steps, result, left, hresult⟩, hsteps⟩ := hm chain
  have hquiet : ∀ step ∈ steps, (Trace.start 0).admits step.1 := fun _ _ => rfl
  have huntraced : untraced = (result, ⟨left, #[] ++ steps.map (·.1), _⟩) :=
    (hsteps _ _).trans (History.follow_of_admits hquiet result left #[])
  have htraced : traced = History.follow result left steps #[] t := hsteps _ _
  obtain hall | ⟨before, e, left', later, r, rfl, hbefore, hdue, htext⟩ :=
    History.admits_or_ragged steps t
  · rw [History.follow_of_admits hall] at htraced
    rw [huntraced, htraced]
    have hevents : ∀ e ∈ steps.map (·.1), t.admits e := by simpa using hall
    refine ⟨?_, ⟨fun h => absurd h hresult, ?_⟩, fun _ => ⟨rfl, rfl, rfl⟩⟩
    · simpa using (List.takeWhile_eq_self_iff.mpr hevents).symm
    · rintro ⟨e, he, hnot⟩
      exact absurd (hevents e (by simpa using he)) hnot
  · rw [History.follow_of_ragged hbefore hdue htext] at htraced
    rw [huntraced, htraced]
    have hevents : ∀ e ∈ before.map (·.1), t.admits e := by simpa using hbefore
    have hnot : ¬ t.admits e := by
      rw [Trace.admits_iff, htext]
      exact fun h => absurd (h hdue) nofun
    refine ⟨?_, ⟨fun _ => ⟨e, by simp, hnot⟩, fun _ => ⟨r, rfl⟩⟩, fun h => absurd ⟨r, rfl⟩ h⟩
    simp [List.takeWhile_append_of_pos hevents, hnot]

theorem hasHistory_asName (v : Value) : HasHistory (ofExcept (asName v)) := by
  refine hasHistory_ofExcept ?_
  unfold asName asToken
  cases v.token? with
  | none => exact not_brokenOff_misfit _
  | some t =>
    simp only [bind, Except.bind]
    split
    · exact not_brokenOff_misfit _
    · exact not_brokenOff_ok _

theorem hasHistory_responds {P : Value → Prop} {x : Except Fault Value} (h : Responds P x) :
    HasHistory (ofExcept x) := by
  refine hasHistory_ofExcept ?_
  cases h with
  | value => exact not_brokenOff_ok _
  | mismatch => exact not_brokenOff_runtime _
  | misfit => exact not_brokenOff_misfit _

theorem hasHistory_lookup (v : Value) : HasHistory (lookup v) := by
  rw [lookup_eq]
  refine (hasHistory_asName v).bind fun (t, name) chain => ?_
  dsimp only
  cases chain.find? name with
  | some value => exact ⟨⟨[], .ok value, chain, not_brokenOff_ok value⟩, fun _ _ => rfl⟩
  | none => exact ⟨⟨[], _, chain, not_brokenOff_runtime (.undefined t)⟩, fun _ _ => rfl⟩

theorem hasHistory_assign (v value : Value) : HasHistory (assign v value) := by
  rw [assign_eq]
  refine (hasHistory_asName v).bind fun (t, name) chain => ?_
  dsimp only
  cases chain.assign? name value with
  | some chain' => exact hasHistory_happen (.assigned name value) chain'
  | none => exact ⟨⟨[], _, chain, not_brokenOff_runtime (.undefined t)⟩, fun _ _ => rfl⟩

theorem hasHistory_define (v value : Value) : HasHistory (define v value) := by
  rw [define_eq]
  refine (hasHistory_asName v).bind fun (_, name) chain => ?_
  exact hasHistory_happen (.declared name value) (chain.define name value)

theorem hasHistory_evaluate : (v : Value) → HasHistory (evaluate v)
  | .node (.literal value) => hasHistory_pure value
  | .node (.grouping e) => hasHistory_evaluate e
  | .node (.variable name) => hasHistory_lookup name
  | .node (.assign name e) => (hasHistory_evaluate e).bind fun value =>
      (hasHistory_assign name value).bind fun _ => hasHistory_pure value
  | .node (.unary operator right) => (hasHistory_evaluate right).bind fun r =>
      hasHistory_responds (responds_applyUnary steady_all operator r)
  | .node (.binary left operator right) => (hasHistory_evaluate left).bind fun l =>
      (hasHistory_evaluate right).bind fun r =>
        hasHistory_responds (responds_applyBinary steady_all operator (a := l) (b := r) trivial trivial)
  | .node (.expression _) | .node (.print _) | .node (.var _ _) | .node (.block _) =>
    hasHistory_misfit _
  | .nil | .bool _ | .number _ | .string _ | .integer _ | .noNumber _ | .list _ | .dict _
  | .token .. => hasHistory_misfit _

theorem hasHistory_initialValue (v : Value) : HasHistory (initialValue v) := by
  unfold initialValue
  split
  · exact hasHistory_pure Value.nil
  · exact hasHistory_evaluate _

mutual

theorem hasHistory_execute : (v : Value) → HasHistory (execute v)
  | .node (.expression e) => (hasHistory_evaluate e).bind fun _ => hasHistory_pure ()
  | .node (.print e) => (hasHistory_evaluate e).bind fun _ => hasHistory_happen _
  | .node (.var name initializer) => (hasHistory_initialValue initializer).bind fun value =>
      hasHistory_define name value
  | .node (.block statements) => HasHistory.inNewScope ((hasHistory_happen _).bind fun _ =>
      (hasHistory_executeAll statements).bind fun _ => hasHistory_happen .left)
  | .node (.literal _) | .node (.grouping _) | .node (.variable _) | .node (.assign _ _)
  | .node (.unary _ _) | .node (.binary _ _ _) => hasHistory_misfit _
  | .nil | .bool _ | .number _ | .string _ | .integer _ | .noNumber _ | .list _ | .dict _
  | .token .. => hasHistory_misfit _

theorem hasHistory_executeAll : (vs : List Value) → HasHistory (executeAll vs)
  | [] => hasHistory_pure ()
  | v :: vs => (hasHistory_execute v).bind fun _ => hasHistory_executeAll vs

end

theorem hasHistory_passOn {fault : Fault} (h : ¬ BrokenOff (.error fault : Except Fault Unit)) :
    HasHistory (passOn fault) := by
  cases fault with
  | runtime e => exact (hasHistory_happen _).bind fun _ => hasHistory_throw (not_brokenOff_runtime e)
  | breakdown b => exact hasHistory_throw h

theorem HasHistory.passedOn {m : Exec Unit} (hm : HasHistory m) :
    HasHistory (tryCatch m passOn) := by
  refine hm.append (fun
    | (.ok a, w) => (.ok a, w)
    | (.error fault, w) => passOn fault w) (fun w => ?_) (fun _ _ => rfl) fun result h => ?_
  · rw [tryCatch_apply]
    rcases m w with ⟨_ | _, w'⟩ <;> rfl
  cases result with
  | ok a => exact hasHistory_pure a
  | error fault => exact hasHistory_passOn h

/-- A program has a history in all scopes. -/
theorem hasHistory_executeProgram (vs : List Value) : HasHistory (executeProgram vs) :=
  (hasHistory_happen _).bind fun _ => (hasHistory_executeAll vs).passedOn

end LoxLang.Run
