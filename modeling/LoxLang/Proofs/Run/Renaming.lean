import LoxLang.Proofs.Run.Resolution

/-!
Programs under other names.

A renaming gives every variable of a program, and every name bound in the scopes in which it runs, a
new name. As long as it keeps different names apart nothing else changes: the program prints the
same, ends in the same way and leaves the same values behind, under the new names.
-/
namespace LoxLang

section

variable (f : String → String)

def Token.rename (t : Token) : Token :=
  { t with lexeme := f t.lexeme }

def Expr.rename : Expr → Expr
  | .literal v => .literal v
  | .grouping e => .grouping e.rename
  | .unary operator e => .unary operator e.rename
  | .binary l operator r => .binary l.rename operator r.rename
  | .variable name => .variable (name.rename f)
  | .assign name e => .assign (name.rename f) e.rename

mutual

def Stmt.rename : Stmt → Stmt
  | .expression e => .expression (e.rename f)
  | .print e => .print (e.rename f)
  | .var name initializer => .var (name.rename f) (initializer.map (Expr.rename f))
  | .block body => .block (Stmt.renameAll body)

def Stmt.renameAll : List Stmt → List Stmt
  | [] => []
  | s :: ss => s.rename :: Stmt.renameAll ss

end

/-- The new name of a bound name; what is bound to other values than whole texts stays. -/
def Value.renamed : Value → Value
  | .string (.whole s) => .string (f s)
  | v => v

def Scope.rename (s : Scope) : Scope :=
  ⟨s.bindings.map fun b => (b.1.renamed f, b.2)⟩

def Chain.rename (chain : Chain) : Chain :=
  chain.map (·.rename f)

end

/-! A name means under its new name what it meant before. -/

section

variable {f : String → String}

theorem Value.string?_renamed (v : Value) : (v.renamed f).string? = v.string?.map f := by
  cases v with
  | string s => cases s <;> rfl
  | _ => rfl

theorem Value.renamed_same (hf : Function.Injective f) (v : Value) (name : String) :
    (v.renamed f).same (.string (f name)) = v.same (.string name) := by
  have hmap : v.string?.map f = some (f name) ↔ v.string? = some name :=
    (Option.map_injective hf).eq_iff (b := some name)
  rw [same_string, same_string, string?_renamed, decide_eq_decide]
  exact hmap

namespace Scope

theorem find?_rename (hf : Function.Injective f) (s : Scope) (name : String) :
    (s.rename f).find? (.string (f name)) = s.find? (.string name) := by
  simp only [rename, find?, List.find?_map, Function.comp_def, Value.renamed_same hf, Option.map_map]

theorem binds_rename (hf : Function.Injective f) (s : Scope) (name : String) :
    (s.rename f).binds (.string (f name)) = s.binds (.string name) := by
  simp only [rename, binds, List.any_map, Function.comp_def, Value.renamed_same hf]

theorem insert_rename (hf : Function.Injective f) (s : Scope) (name : String) (v : Value) :
    (s.rename f).insert (.string (f name)) v = (s.insert (.string name) v).rename f := by
  obtain ⟨bindings⟩ := s
  refine congrArg Scope.mk ?_
  change insertBinding _ _ (List.map _ bindings) = List.map _ (insertBinding _ _ bindings)
  induction bindings with
  | nil => rfl
  | cons entry rest ih =>
    rw [List.map_cons, insertBinding, insertBinding, Value.renamed_same hf, ih]
    split <;> rfl

end Scope

namespace Chain

theorem find?_rename (hf : Function.Injective f) (chain : Chain) (name : String) :
    (chain.rename f).find? (.string (f name)) = chain.find? (.string name) := by
  simp only [rename, find?, List.findSome?_map, Function.comp_def, Scope.find?_rename hf]

theorem define_rename (hf : Function.Injective f) (chain : Chain) (name : String) (v : Value) :
    (chain.rename f).define (.string (f name)) v = (chain.define (.string name) v).rename f := by
  cases chain with
  | nil => exact congrArg ([·]) (Scope.insert_rename hf {} name v)
  | cons s outer => exact congrArg (· :: rename f outer) (s.insert_rename hf name v)

theorem assign?_rename (hf : Function.Injective f) (chain : Chain) (name : String) (v : Value) :
    (chain.rename f).assign? (.string (f name)) v =
      (chain.assign? (.string name) v).map (rename f) := by
  induction chain with
  | nil => rfl
  | cons s outer ih =>
    change assign? _ _ (s.rename f :: rename f outer) = _
    rw [assign?, assign?, Scope.binds_rename hf, Scope.insert_rename hf, ih]
    split
    · rfl
    · rw [Option.map_map, Option.map_map]
      rfl

end Chain

end

end LoxLang

namespace LoxLang.Run

variable {α β : Type} {f : String → String}

/-- Results that differ in the name of an undefined variable at most, and in the line that cannot be
written. -/
inductive Renamed (f : String → String) : Except Fault α → Except Fault α → Prop
  | ok (a : α) : Renamed f (.ok a) (.ok a)
  | mismatch (operator : LooseToken) (need : Need) :
    Renamed f (.error (.runtime (.mismatch operator need)))
      (.error (.runtime (.mismatch operator need)))
  | undefined (name : Token) :
    Renamed f (.error (.runtime (.undefined name.loose)))
      (.error (.runtime (.undefined (name.rename f).loose)))
  | unwritable (line line' : Ragged) :
    Renamed f (.error (.breakdown (.unwritable line))) (.error (.breakdown (.unwritable line')))

/-- The second world has the scopes of the first under new names, the same text is printed and the
same events are due. -/
structure World.Renamed (f : String → String) (w w' : World) : Prop where
  chain : w'.chain = w.chain.rename f
  written : written w'.events = written w.events
  shows : w'.trace.shows = w.trace.shows

/-- The second computation does under new names what the first one does. -/
def Renames (f : String → String) (m m' : Exec α) : Prop :=
  ∀ w w', World.Renamed f w w' → Renamed f (m w).1 (m' w').1 ∧ World.Renamed f (m w).2 (m' w').2

theorem renames_pure (a : α) : Renames f (pure a : Exec α) (pure a) :=
  fun _ _ h => ⟨.ok a, h⟩

theorem Renames.bind {m m' : Exec α} {g g' : α → Exec β} (hm : Renames f m m')
    (hg : ∀ a, Renames f (g a) (g' a)) : Renames f (m >>= g) (m' >>= g') := by
  intro w w' h
  obtain ⟨hresult, hworld⟩ := hm w w' h
  rw [bind_apply, bind_apply]
  generalize m w = final at hresult hworld
  generalize m' w' = final' at hresult hworld
  obtain ⟨result, w₁⟩ := final
  obtain ⟨result', w₁'⟩ := final'
  cases hresult with
  | ok a => exact hg a w₁ w₁' hworld
  | mismatch operator need => exact ⟨.mismatch operator need, hworld⟩
  | undefined name => exact ⟨.undefined name, hworld⟩
  | unwritable line line' => exact ⟨.unwritable line line', hworld⟩

/-- Operators do not look at names. -/
theorem renames_ofExcept {Q : α → Prop} {x : Except Fault α} (hproper : Proper Q x)
    (hmismatch : ∀ e, x = .error (.runtime e) → ∃ t need, e = .mismatch t need) :
    Renames f (ofExcept x) (ofExcept x) := by
  intro w w' h
  obtain ⟨a, rfl, -⟩ | ⟨e, rfl, -⟩ := hproper
  · exact ⟨.ok a, h⟩
  · obtain ⟨t, need, rfl⟩ := hmismatch e rfl
    exact ⟨.mismatch t need, h⟩

/-- Events that print the same, and that are due and ragged alike, keep worlds alike. -/
theorem renamed_happen {w w' : World} (h : World.Renamed f w w') {e e' : Event}
    (houtput : e'.output = e.output) (hlevel : e'.level = e.level)
    (hwhole : e'.text.isWhole = e.text.isWhole) :
    Renamed f (happen e w).1 (happen e' w').1 ∧ World.Renamed f (happen e w).2 (happen e' w').2 := by
  have hdue : w'.trace.shows e' = w.trace.shows e := by
    rw [h.shows, Trace.shows, Trace.shows, hlevel]
  obtain ⟨u, u', hu, hu', hshows, hshows'⟩ | ⟨line, line', hline, hline', -⟩ :=
    Trace.write_both hdue hwhole
  · rw [happen_of_ok hu, happen_of_ok hu']
    refine ⟨.ok (), h.chain, ?_, ?_⟩
    · rw [written_push, written_push, houtput, h.written]
    · rw [hshows', h.shows, hshows]
  · rw [happen_of_error hline, happen_of_error hline']
    exact ⟨.unwritable line line', h⟩

theorem renames_happen (e : Event) : Renames f (happen e) (happen e) :=
  fun _ _ h => renamed_happen h rfl rfl rfl

theorem renames_lookup (hf : Function.Injective f) (t : Token) :
    Renames f (lookup t.toValue) (lookup (t.rename f).toValue) := by
  intro w w' h
  have hfind : w'.chain.find? (.string (t.rename f).lexeme) = w.chain.find? (.string t.lexeme) := by
    rw [h.chain]
    exact w.chain.find?_rename hf t.lexeme
  rw [lookup_apply, lookup_apply, hfind]
  cases w.chain.find? (.string t.lexeme) with
  | some v => exact ⟨.ok v, h⟩
  | none => exact ⟨.undefined t, h⟩

theorem renames_assign (hf : Function.Injective f) (t : Token) (v : Value) :
    Renames f (assign t.toValue v) (assign (t.rename f).toValue v) := by
  intro w w' h
  have hassign : w'.chain.assign? (.string (t.rename f).lexeme) v =
      (w.chain.assign? (.string t.lexeme) v).map (Chain.rename f) := by
    rw [h.chain]
    exact w.chain.assign?_rename hf t.lexeme v
  rw [assign_apply, assign_apply, hassign]
  cases w.chain.assign? (.string t.lexeme) v with
  | some chain =>
    have hworld : World.Renamed f { w with chain } { w' with chain := chain.rename f } :=
      ⟨rfl, h.written, h.shows⟩
    exact renamed_happen hworld rfl rfl ((isWhole_assigned _ v).trans (isWhole_assigned _ v).symm)
  | none => exact ⟨.undefined t, h⟩

theorem renames_define (hf : Function.Injective f) (t : Token) (v : Value) :
    Renames f (define t.toValue v) (define (t.rename f).toValue v) := by
  intro w w' h
  have hdefine : w'.chain.define (.string (t.rename f).lexeme) v =
      (w.chain.define (.string t.lexeme) v).rename f := by
    rw [h.chain]
    exact w.chain.define_rename hf t.lexeme v
  have hworld : World.Renamed f { w with chain := w.chain.define (.string t.lexeme) v }
      { w' with chain := w'.chain.define (.string (t.rename f).lexeme) v } :=
    ⟨hdefine, h.written, h.shows⟩
  rw [define_apply, define_apply]
  exact renamed_happen hworld rfl rfl ((isWhole_declared _ v).trans (isWhole_declared _ v).symm)

theorem Renames.inNewScope {body body' : Exec Unit} (hbody : Renames f body body') :
    Renames f (inNewScope body) (inNewScope body') := by
  intro w w' h
  have hinner : World.Renamed f { w with chain := {} :: w.chain } { w' with chain := {} :: w'.chain } :=
    ⟨congrArg ({} :: ·) h.chain, h.written, h.shows⟩
  obtain ⟨hresult, hchain, hwritten, hshows⟩ := hbody _ _ hinner
  refine ⟨hresult, ?_, hwritten, hshows⟩
  exact (congrArg List.tail hchain).trans List.map_tail.symm

theorem renames_evaluate (hf : Function.Injective f) {e : Expr} (he : e.WellFormed) :
    Renames f (evaluate e.toValue) (evaluate (e.rename f).toValue) := by
  induction e with
  | literal v => exact renames_pure v
  | grouping e ih => exact ih he
  | unary operator e ih =>
    obtain ⟨hk, -, hright⟩ := he
    exact (ih hright).bind fun v =>
      renames_ofExcept (proper_applyUnary steady_all hk v) fun _ => exists_mismatch_of_applyUnary
  | binary l operator r ihl ihr =>
    obtain ⟨hk, -, hl, hr⟩ := he
    exact (ihl hl).bind fun a => (ihr hr).bind fun b =>
      renames_ofExcept (proper_applyBinary steady_all hk trivial trivial) fun _ =>
        exists_mismatch_of_applyBinary
  | «variable» name => exact renames_lookup hf name
  | assign name e ih =>
    obtain ⟨-, -, hvalue⟩ := he
    exact (ih hvalue).bind fun v => (renames_assign hf name v).bind fun _ => renames_pure v

theorem renames_initialValue (hf : Function.Injective f) {initializer : Option Expr}
    (h : ∀ e ∈ initializer, e.WellFormed) :
    Renames f (initialValue (initializer.elim .nil Expr.toValue))
      (initialValue ((initializer.map (Expr.rename f)).elim .nil Expr.toValue)) := by
  cases initializer with
  | none => exact renames_pure Value.nil
  | some e =>
    rw [Option.map_some, Option.elim_some, Option.elim_some, initialValue_toValue, initialValue_toValue]
    exact renames_evaluate hf (h e rfl)

theorem length_renameAll (ss : List Stmt) :
    (Stmt.toValues (Stmt.renameAll f ss)).length = (Stmt.toValues ss).length := by
  induction ss with
  | nil => rfl
  | cons s ss ih => simp only [Stmt.renameAll, Stmt.toValues, List.length_cons, ih]

mutual

theorem renames_execute (hf : Function.Injective f) : {s : Stmt} → s.WellFormed →
    Renames f (execute s.toValue) (execute (s.rename f).toValue)
  | .expression _, h => (renames_evaluate hf h).bind fun _ => renames_pure ()
  | .print _, h => (renames_evaluate hf h).bind fun v => renames_happen (.printed v)
  | .var name _, h => (renames_initialValue hf h.2.2).bind fun v => renames_define hf name v
  | .block body, h => by
    -- the event of entering a block holds the number of its statements
    have hentered : Renames f (happen (.entered (Stmt.toValues body).length))
        (happen (.entered (Stmt.toValues (Stmt.renameAll f body)).length)) := by
      rw [length_renameAll]
      exact renames_happen _
    exact Renames.inNewScope (hentered.bind fun _ =>
      (renames_executeAll hf body h).bind fun _ => renames_happen .left)

theorem renames_executeAll (hf : Function.Injective f) : (ss : List Stmt) →
    Stmt.AllConsist (fun v => v.isLox) (fun _ => True) ss →
    Renames f (executeAll (Stmt.toValues ss)) (executeAll (Stmt.toValues (Stmt.renameAll f ss)))
  | [], _ => renames_pure ()
  | s :: ss, h => (renames_execute hf (s := s) h.1).bind fun _ => renames_executeAll hf ss h.2

end

/-- The error that stops one program is of the same level as that of the other, and both have whole
lines. -/
theorem Renames.passedOn {m m' : Exec Unit} (h : Renames f m m') :
    Renames f (tryCatch m passOn) (tryCatch m' passOn) := by
  intro w w' hw
  obtain ⟨hresult, hworld⟩ := h w w' hw
  rw [tryCatch_apply, tryCatch_apply]
  generalize m w = final at hresult hworld
  generalize m' w' = final' at hresult hworld
  obtain ⟨result, w₁⟩ := final
  obtain ⟨result', w₁'⟩ := final'
  cases hresult with
  | ok a => exact ⟨.ok a, hworld⟩
  | mismatch operator need =>
    exact (renames_happen _).bind (fun _ => fun _ _ h => ⟨.mismatch operator need, h⟩) w₁ w₁' hworld
  | undefined name =>
    have hfailed : Renames f
        (happen (.failed name.line (RuntimeError.undefined name.loose).message))
        (happen (.failed name.line (RuntimeError.undefined (name.rename f).loose).message)) :=
      fun _ _ h => renamed_happen h rfl rfl rfl
    exact hfailed.bind (fun _ => fun _ _ h => ⟨.undefined name, h⟩) w₁ w₁' hworld
  | unwritable line line' => exact ⟨.unwritable line line', hworld⟩

end LoxLang.Run

namespace LoxLang.Session

open Run

end LoxLang.Session
