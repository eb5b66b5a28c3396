import LoxLang.Proofs.Run.Safety

/-!
Trees that can always be traced.

Whatever else is wrong with a tree, its run is broken off on the trace only by a ragged text, and it
shows the values of literals and the names of variables only. So no run of a tree whose literals and
names are legible is ever broken off, and it leaves legible values behind. All statements that the
grammar builds are such trees.
-/
namespace LoxLang

theorem Value.isWhole_text (v : Value) : v.text.isWhole = v.isLegible := by
  cases v with
  | bool b => cases b <;> rfl
  | _ => rfl

/-- A token with a legible name, or no token at all. -/
def Value.namesLegibly (v : Value) : Bool :=
  v.token?.all fun t => t.lexeme.isLegible

mutual

/-- A tree with legible literals and names. -/
def Value.isTraceable : Value → Bool
  | .node (.literal v) => v.isLegible
  | .node (.variable name) => name.namesLegibly
  | .node (.grouping e) | .node (.unary _ e) | .node (.expression e) | .node (.print e) =>
    e.isTraceable
  | .node (.binary l _ r) => l.isTraceable && r.isTraceable
  | .node (.assign name e) | .node (.var name e) => name.namesLegibly && e.isTraceable
  | .node (.block statements) => Value.allTraceable statements
  | _ => true

def Value.allTraceable : List Value → Bool
  | [] => true
  | v :: vs => v.isTraceable && Value.allTraceable vs

end

theorem Token.namesLegibly (t : Token) : t.toValue.namesLegibly := rfl

theorem Expr.isTraceable {e : Expr} (h : e.WellFormed) : e.toValue.isTraceable := by
  induction e with
  | literal v => exact Value.isLegible_of_isLox h
  | grouping e ih => exact ih h
  | unary operator e ih => exact ih h.2.2
  | binary l operator r ihl ihr =>
    obtain ⟨-, -, hl, hr⟩ := h
    exact Bool.and_eq_true_iff.mpr ⟨ihl hl, ihr hr⟩
  | «variable» name => exact name.namesLegibly
  | assign name e ih => exact Bool.and_eq_true_iff.mpr ⟨name.namesLegibly, ih h.2.2⟩

mutual

theorem Stmt.isTraceable : {s : Stmt} → s.WellFormed → s.toValue.isTraceable
  | .expression _, h => Expr.isTraceable h
  | .print _, h => Expr.isTraceable h
  | .var name none, _ => Bool.and_eq_true_iff.mpr ⟨name.namesLegibly, rfl⟩
  | .var name (some e), h =>
    Bool.and_eq_true_iff.mpr ⟨name.namesLegibly, Expr.isTraceable (h.2.2 e rfl)⟩
  | .block body, h => Stmt.allTraceable body h

theorem Stmt.allTraceable : (ss : List Stmt) →
    Stmt.AllConsist (fun v => v.isLox) (fun _ => True) ss → Value.allTraceable (Stmt.toValues ss)
  | [], _ => rfl
  | s :: ss, h => Bool.and_eq_true_iff.mpr ⟨Stmt.isTraceable (s := s) h.1, Stmt.allTraceable ss h.2⟩

end

end LoxLang

namespace LoxLang.Run

variable {α β : Type}

/-- A result with the property, a runtime error that can be traced, or a breakdown that is not one of
the trace. -/
def Untorn (Q : α → Prop) : Except Fault α → Prop
  | .ok a => Q a
  | .error (.runtime e) => e.message.isWhole
  | .error (.breakdown b) => ∀ r, b ≠ .unwritable r

/-- From scopes with legible values the computation comes to such a result, and it leaves such scopes
again. -/
def Legible (Q : α → Prop) (m : Exec α) : Prop :=
  ∀ w : World, (w.chain.Holds fun v => v.isLegible) →
    Untorn Q (m w).1 ∧ (m w).2.chain.Holds fun v => v.isLegible

theorem legible_ofExcept {Q : α → Prop} {x : Except Fault α} (h : Untorn Q x) :
    Legible Q (ofExcept x) :=
  fun _ hw => ⟨h, hw⟩

theorem legible_pure {Q : α → Prop} {a : α} (h : Q a) : Legible Q (pure a) :=
  legible_ofExcept (x := .ok a) h

theorem legible_misfit {Q : α → Prop} (m : Misfit) :
    Legible Q (throw (.breakdown (.misfit m)) : Exec α) :=
  legible_ofExcept (x := .error (.breakdown (.misfit m))) nofun

theorem Legible.bind {Q : α → Prop} {R : β → Prop} {m : Exec α} {f : α → Exec β} (hm : Legible Q m)
    (hf : ∀ a, Q a → Legible R (f a)) : Legible R (m >>= f) := by
  intro w hw
  have hfinal := hm w hw
  rw [bind_apply]
  generalize m w = final at hfinal
  obtain ⟨result, w'⟩ := final
  obtain ⟨hresult, hw'⟩ := hfinal
  rcases result with (e | b) | a
  · exact ⟨hresult, hw'⟩
  · exact ⟨hresult, hw'⟩
  · exact hf a hresult w' hw'

theorem legible_happen {e : Event} (h : e.text.isWhole) : Legible (fun _ => True) (happen e) := by
  intro w hw
  obtain ⟨u, hu, -⟩ := Trace.write_ok (t := w.trace) fun _ => h
  rw [happen_of_ok hu]
  exact ⟨trivial, hw⟩

theorem legible_responds {x : Except Fault Value} (h : Responds (fun v => v.isLegible) x) :
    Legible (fun v => v.isLegible) (ofExcept x) := by
  refine legible_ofExcept ?_
  cases h with
  | value hv => exact hv
  | mismatch t need => cases need <;> rfl
  | misfit m => exact nofun

/-- The name of a variable is legible, and so is the message if it is undefined. -/
theorem legible_asName {v : Value} (h : v.namesLegibly) :
    Legible (fun p => p.2.isLegible ∧ (RuntimeError.undefined p.1).message.isWhole)
      (ofExcept (asName v)) := by
  refine legible_ofExcept ?_
  unfold asName asToken
  unfold Value.namesLegibly at h
  cases htoken : v.token? with
  | none => exact nofun
  | some t =>
    rw [htoken] at h
    have hname : t.lexeme.isLegible := h
    simp only [bind, Except.bind]
    split
    · exact nofun
    · exact ⟨hname, by simp [RuntimeError.message, Value.isWhole_text, hname]⟩

theorem legible_lookup {v : Value} (h : v.namesLegibly) :
    Legible (fun v => v.isLegible) (lookup v) := by
  rw [lookup_eq]
  refine (legible_asName h).bind fun (t, name) ⟨_, hmessage⟩ w hw => ?_
  dsimp only
  split
  · next value hfind => exact ⟨hw.find? hfind, hw⟩
  · exact ⟨hmessage, hw⟩

theorem legible_assign {v value : Value} (h : v.namesLegibly) (hvalue : value.isLegible) :
    Legible (fun _ => True) (assign v value) := by
  rw [assign_eq]
  refine (legible_asName h).bind fun (t, name) ⟨hname, hmessage⟩ w hw => ?_
  dsimp only
  split
  · next chain hassign =>
    have hprinted : value.printed.isWhole := hvalue
    refine legible_happen ?_ { w with chain } (hw.assign? hvalue hassign)
    simp [Event.text, Value.isWhole_text, hname, hprinted]
  · exact ⟨hmessage, hw⟩

theorem legible_define {v value : Value} (h : v.namesLegibly) (hvalue : value.isLegible) :
    Legible (fun _ => True) (define v value) := by
  rw [define_eq]
  refine (legible_asName h).bind fun (t, name) ⟨hname, _⟩ w hw => ?_
  have hprinted : value.printed.isWhole := hvalue
  refine legible_happen ?_ { w with chain := w.chain.define name value } (hw.define name hvalue)
  simp [Event.text, Value.isWhole_text, hname, hprinted]

theorem Legible.inNewScope {Q : Unit → Prop} {body : Exec Unit} (h : Legible Q body) :
    Legible Q (inNewScope body) := by
  intro w hw
  have hchain : Chain.Holds (fun v => v.isLegible) ({} :: w.chain) :=
    List.forall_mem_cons.mpr ⟨nofun, hw⟩
  obtain ⟨hresult, hw'⟩ := h { w with chain := {} :: w.chain } hchain
  exact ⟨hresult, fun s hs => hw' s (List.mem_of_mem_tail hs)⟩

theorem legible_evaluate : (v : Value) → v.isTraceable → Legible (fun v => v.isLegible) (evaluate v)
  | .node (.literal _), h => legible_pure h
  | .node (.grouping e), h => legible_evaluate e h
  | .node (.variable _), h => legible_lookup h
  | .node (.assign _ e), h => by
    obtain ⟨hname, he⟩ := Bool.and_eq_true_iff.mp h
    exact (legible_evaluate e he).bind fun _ hv =>
      (legible_assign hname hv).bind fun _ _ => legible_pure hv
  | .node (.unary operator right), h => (legible_evaluate right h).bind fun r _ =>
      legible_responds (responds_applyUnary steady_isLegible operator r)
  | .node (.binary left operator right), h => by
    obtain ⟨hleft, hright⟩ := Bool.and_eq_true_iff.mp h
    exact (legible_evaluate left hleft).bind fun _ hl => (legible_evaluate right hright).bind fun _ hr =>
      legible_responds (responds_applyBinary steady_isLegible operator hl hr)
  | .node (.expression _), _ | .node (.print _), _ | .node (.var _ _), _ | .node (.block _), _ =>
    legible_misfit _
  | .nil, _ | .bool _, _ | .number _, _ | .string _, _ | .integer _, _ | .noNumber _, _ | .list _, _
  | .dict _, _ | .token .., _ => legible_misfit _

theorem legible_initialValue (v : Value) (h : v.isTraceable) :
    Legible (fun v => v.isLegible) (initialValue v) := by
  unfold initialValue
  split
  · exact legible_pure rfl
  · exact legible_evaluate _ h

mutual

theorem legible_execute : (v : Value) → v.isTraceable → Legible (fun _ => True) (execute v)
  | .node (.expression e), h => (legible_evaluate e h).bind fun _ _ => legible_pure trivial
  | .node (.print e), h => (legible_evaluate e h).bind fun v hv =>
      legible_happen ((isWhole_printed v).trans hv)
  | .node (.var _ initializer), h => by
    obtain ⟨hname, hinitializer⟩ := Bool.and_eq_true_iff.mp h
    exact (legible_initialValue initializer hinitializer).bind fun _ hv => legible_define hname hv
  | .node (.block statements), h => Legible.inNewScope ((legible_happen rfl).bind fun _ _ =>
      (legible_executeAll statements h).bind fun _ _ => legible_happen rfl)
  | .node (.literal _), _ | .node (.grouping _), _ | .node (.variable _), _ | .node (.assign _ _), _
  | .node (.unary _ _), _ | .node (.binary _ _ _), _ => legible_misfit _
  | .nil, _ | .bool _, _ | .number _, _ | .string _, _ | .integer _, _ | .noNumber _, _ | .list _, _
  | .dict _, _ | .token .., _ => legible_misfit _

theorem legible_executeAll : (vs : List Value) → Value.allTraceable vs →
    Legible (fun _ => True) (executeAll vs)
  | [], _ => legible_pure trivial
  | v :: vs, h => by
    obtain ⟨hv, hvs⟩ := Bool.and_eq_true_iff.mp h
    exact (legible_execute v hv).bind fun _ _ => legible_executeAll vs hvs

end

/-- A runtime error with a whole message is traced and passed on. -/
theorem Legible.passedOn {Q : Unit → Prop} {m : Exec Unit} (h : Legible Q m) :
    Legible Q (tryCatch m passOn) := by
  intro w hw
  have hfinal := h w hw
  rw [tryCatch_apply]
  generalize m w = final at hfinal
  obtain ⟨result, w'⟩ := final
  obtain ⟨hresult, hw'⟩ := hfinal
  rcases result with (e | b) | a
  · have hmessage : e.message.isWhole := hresult
    have hwhole : (Event.failed e.token.line e.message).text.isWhole := by
      simp [Event.text, hmessage]
    have hpassed : Legible Q (passOn (.runtime e)) :=
      (legible_happen hwhole).bind fun _ _ => legible_ofExcept (x := .error (.runtime e)) hresult
    exact hpassed w' hw'
  · exact ⟨hresult, hw'⟩
  · exact ⟨hresult, hw'⟩

end LoxLang.Run
