import LoxLang.Proofs.Run.Piecewise

/-!
Programs as flat code.

A machine with a stack of operands and a list of scopes runs the instructions of a program one by
one and stops at the first that fails. A run of well-formed statements is a run of their code: the
same output, the same variables and the same error, with the effects of the instructions in front of
the failing one and of no other. A run that the trace breaks off has run a part of the code.
-/
namespace LoxLang

open Run

inductive Run.Instr where
  | push (v : Value)
  | load (name : Token)
  | store (name : Token)
  | unary (operator : Token)
  | binary (operator : Token)
  | discard
  | print
  | define (name : Token)
  | enter
  | leave

/-- Code that leaves the value of an expression on the stack. -/
def Expr.code : Expr → List Instr
  | .literal v => [.push v]
  | .grouping e => e.code
  | .unary operator e => e.code ++ [.unary operator]
  | .binary l operator r => l.code ++ (r.code ++ [.binary operator])
  | .variable name => [.load name]
  | .assign name e => e.code ++ [.store name]

mutual

/-- Code that does what a statement does and leaves the stack as it was. -/
def Stmt.code : Stmt → List Instr
  | .expression e => e.code ++ [.discard]
  | .print e => e.code ++ [.print]
  | .var name initializer => initializer.elim [.push .nil] Expr.code ++ [.define name]
  | .block body => .enter :: (Stmt.codes body ++ [.leave])

def Stmt.codes : List Stmt → List Instr
  | [] => []
  | s :: ss => s.code ++ Stmt.codes ss

end

end LoxLang

namespace LoxLang.Run

/-- The operands, the last one first, the scopes, the innermost first, and the text printed. -/
structure Machine where
  stack : List Value
  scopes : Chain
  output : Text

/-- Why an instruction fails: for a runtime error, or for want of something to work on. -/
inductive Halt where
  | failed (e : RuntimeError)
  | stuck

def Halt.ofFault : Fault → Halt
  | .runtime e => .failed e
  | .breakdown _ => .stuck

/-- What an operator leaves, with the rest of the operands below its result. -/
def Machine.answer (m : Machine) (rest : List Value) : Except Fault Value → Except Halt Machine
  | .ok r => .ok { m with stack := r :: rest }
  | .error fault => .error (.ofFault fault)

def step (i : Instr) (m : Machine) : Except Halt Machine :=
  match i with
  | .push v => .ok { m with stack := v :: m.stack }
  | .load name =>
    match m.scopes.find? (.string name.lexeme) with
    | some v => .ok { m with stack := v :: m.stack }
    | none => .error (.failed (.undefined name.loose))
  | .store name =>
    match m.stack with
    | v :: _ =>
      match m.scopes.assign? (.string name.lexeme) v with
      | some scopes => .ok { m with scopes := scopes }
      | none => .error (.failed (.undefined name.loose))
    | [] => .error .stuck
  | .unary operator =>
    match m.stack with
    | v :: rest => m.answer rest (applyUnary operator.toValue v)
    | [] => .error .stuck
  | .binary operator =>
    match m.stack with
    | r :: l :: rest => m.answer rest (applyBinary operator.toValue l r)
    | _ => .error .stuck
  | .discard =>
    match m.stack with
    | _ :: rest => .ok { m with stack := rest }
    | [] => .error .stuck
  | .print =>
    match m.stack with
    | v :: rest => .ok { m with stack := rest, output := m.output ++ (v.printed ++ "\n") }
    | [] => .error .stuck
  | .define name =>
    match m.stack with
    | v :: rest =>
      .ok { m with stack := rest, scopes := m.scopes.define (.string name.lexeme) v }
    | [] => .error .stuck
  | .enter => .ok { m with scopes := {} :: m.scopes }
  | .leave =>
    match m.scopes with
    | _ :: outer => .ok { m with scopes := outer }
    | [] => .error .stuck

section

variable {name : Token} {m : Machine} {stack : List Value} {v : Value}

theorem step_load_of_some (h : m.scopes.find? (.string name.lexeme) = some v) :
    step (.load name) m = .ok { m with stack := v :: m.stack } := by
  simp only [step, h]

theorem step_load_of_none (h : m.scopes.find? (.string name.lexeme) = none) :
    step (.load name) m = .error (.failed (.undefined name.loose)) := by
  simp only [step, h]

theorem step_store_of_some {scopes : Chain} (hm : m.stack = v :: stack)
    (h : m.scopes.assign? (.string name.lexeme) v = some scopes) :
    step (.store name) m = .ok { m with scopes := scopes } := by
  simp only [step, hm, h]

theorem step_store_of_none (hm : m.stack = v :: stack)
    (h : m.scopes.assign? (.string name.lexeme) v = none) :
    step (.store name) m = .error (.failed (.undefined name.loose)) := by
  simp only [step, hm, h]

end

/-- Runs code as far as it goes, and tells why it goes no further if it does not go to its end. -/
def run : List Instr → Machine → Machine × Option Halt
  | [], m => (m, none)
  | i :: code, m =>
    match step i m with
    | .ok m' => run code m'
    | .error halt => (m, some halt)

theorem run_cons_of_ok {i : Instr} {m m' : Machine} (h : step i m = .ok m') (code : List Instr) :
    run (i :: code) m = run code m' := by
  rw [run, h]

theorem run_singleton_of_error {i : Instr} {m : Machine} {halt : Halt}
    (h : step i m = .error halt) : run [i] m = (m, some halt) := by
  rw [run, h]

theorem run_append_of_none {code : List Instr} {m m' : Machine} (h : run code m = (m', none))
    (code' : List Instr) : run (code ++ code') m = run code' m' := by
  induction code generalizing m with
  | nil =>
    cases h
    rfl
  | cons i code ih =>
    rw [List.cons_append]
    rw [run] at h ⊢
    cases hi : step i m with
    | error halt =>
      rw [hi] at h
      cases h
    | ok m₁ =>
      rw [hi] at h
      exact ih h

theorem run_append_of_some {code : List Instr} {m m' : Machine} {halt : Halt}
    (h : run code m = (m', some halt)) (code' : List Instr) :
    run (code ++ code') m = (m', some halt) := by
  induction code generalizing m with
  | nil => cases h
  | cons i code ih =>
    rw [List.cons_append]
    rw [run] at h ⊢
    cases hi : step i m with
    | error halt =>
      rw [hi] at h
      exact h
    | ok m₁ =>
      rw [hi] at h
      exact ih h

variable {α β : Type}

/-- The machine for a world, with operands on its stack and text printed earlier. -/
def Machine.ofWorld (stack : List Value) (earlier : Text) (w : World) : Machine :=
  ⟨stack, w.chain, earlier ++ written w.events⟩

/-- How code ends if the computation that it stands for ends so: at its end, with the operands that
belong to the result, or at an instruction that fails with the same error, perhaps with scopes still
open. If the trace breaks the computation off, a part of the code has been run by then. -/
inductive Ended (left : α → List Value) (earlier : Text) (code : List Instr) (start : Machine) :
    Except Fault α × World → Prop
  | completed {a : α} {w : World} (h : run code start = (.ofWorld (left a) earlier w, none)) :
    Ended left earlier code start (.ok a, w)
  | failed {e : RuntimeError} {w : World} {stack : List Value} {opened : Chain}
    (h : run code start =
      (⟨stack, opened ++ w.chain, earlier ++ written w.events⟩, some (.failed e))) :
    Ended left earlier code start (.error (.runtime e), w)
  | brokenOff {r : Ragged} {w : World} {stack : List Value} {opened : Chain} {before : List Instr}
    (hbefore : before <+: code)
    (h : run before start = (⟨stack, opened ++ w.chain, earlier ++ written w.events⟩, none)) :
    Ended left earlier code start (.error (.breakdown (.unwritable r)), w)

/-- From the stack, the code does what the computation does, and as many scopes as there were are
there at the end. -/
def Follows (stack : List Value) (code : List Instr) (x : Exec α) (left : α → List Value) : Prop :=
  ∀ (w : World) (earlier : Text), w.chain ≠ [] →
    Ended left earlier code (.ofWorld stack earlier w) (x w) ∧
      (x w).2.chain.length = w.chain.length

variable {stack : List Value}

theorem follows_pure (a : α) {left : α → List Value} (h : left a = stack) :
    Follows stack [] (pure a) left := by
  intro w earlier _
  rw [← h]
  exact ⟨.completed rfl, rfl⟩

/-- Code in front that is run to its end. -/
theorem Ended.prepend {left : α → List Value} {earlier : Text} {code code' : List Instr}
    {start m : Machine} {final : Except Fault α × World} (h : Ended left earlier code' m final)
    (hrun : run code start = (m, none)) : Ended left earlier (code ++ code') start final := by
  cases h with
  | completed h => exact .completed ((run_append_of_none hrun code').trans h)
  | failed h => exact .failed ((run_append_of_none hrun code').trans h)
  | @brokenOff _ _ _ _ before hbefore h =>
    exact .brokenOff ((List.prefix_append_right_inj code).mpr hbefore)
      ((run_append_of_none hrun before).trans h)

theorem Follows.bind {code code' : List Instr} {x : Exec α} {f : α → Exec β}
    {left : α → List Value} {left' : β → List Value} (hx : Follows stack code x left)
    (hf : ∀ a, Follows (left a) code' (f a) left') :
    Follows stack (code ++ code') (x >>= f) left' := by
  intro w earlier hw
  obtain ⟨hend, hlength⟩ := hx w earlier hw
  rw [bind_apply]
  generalize x w = final at hend hlength
  cases hend with
  | @completed a w' hrun =>
    have hw' : w'.chain ≠ [] := by
      rw [← List.length_pos_iff, hlength]
      exact List.length_pos_iff.mpr hw
    obtain ⟨hend', hlength'⟩ := hf a w' earlier hw'
    exact ⟨hend'.prepend hrun, hlength'.trans hlength⟩
  | failed hrun => exact ⟨.failed (run_append_of_some hrun code'), hlength⟩
  | brokenOff hbefore hrun =>
    exact ⟨.brokenOff (hbefore.trans (List.prefix_append code code')) hrun, hlength⟩

/-- An instruction that fails opens no scope. -/
theorem ended_failed {left : α → List Value} {e : RuntimeError} {w : World} {code : List Instr}
    {start : Machine} {earlier : Text}
    (h : run code start = (⟨stack, w.chain, earlier ++ written w.events⟩, some (.failed e))) :
    Ended left earlier code start (.error (.runtime e), w) := by
  have hopened : run code start =
      (⟨stack, [] ++ w.chain, earlier ++ written w.events⟩, some (.failed e)) := h
  exact .failed hopened

/-- Code for an event is run when the trace breaks off after it and not when it does before. -/
theorem ended_happen (left : Unit → List Value) {e : Event} {w : World}
    {code before : List Instr} {start : Machine} {earlier : Text} (hbefore : before <+: code)
    (hbroken : run before start = (⟨stack, w.chain, earlier ++ written w.events⟩, none))
    (hdone : run code start =
      (⟨left (), w.chain, earlier ++ (written w.events ++ e.output)⟩, none)) :
    Ended left earlier code start (happen e w) ∧ (happen e w).2.chain = w.chain := by
  obtain ⟨u, hu, -⟩ | ⟨r, hr, -⟩ := w.trace.write_cases e
  · rw [happen_of_ok hu]
    refine ⟨.completed ?_, rfl⟩
    rw [hdone, Machine.ofWorld, written_push]
  · rw [happen_of_error hr]
    have hopened : run before start =
        (⟨stack, [] ++ w.chain, earlier ++ written w.events⟩, none) := hbroken
    exact ⟨.brokenOff hbefore hopened, rfl⟩

/-- What happens without printing takes no code. -/
theorem follows_happen {e : Event} (h : e.output = "") {left : Unit → List Value}
    (hleft : left () = stack) : Follows stack [] (happen e) left := by
  intro w earlier _
  have hdone : run [] (.ofWorld stack earlier w) =
      (⟨left (), w.chain, earlier ++ (written w.events ++ e.output)⟩, none) := by
    rw [h, hleft, Text.append_empty]
    rfl
  obtain ⟨hend, hchain⟩ := ended_happen left List.prefix_rfl rfl hdone
  exact ⟨hend, congrArg List.length hchain⟩

/-! One instruction each. -/

theorem follows_push (v : Value) : Follows stack [.push v] (pure v) (· :: stack) :=
  fun _ _ _ => ⟨.completed rfl, rfl⟩

theorem follows_discard (v : Value) : Follows (v :: stack) [.discard] (pure ()) fun _ => stack :=
  fun _ _ _ => ⟨.completed rfl, rfl⟩

theorem follows_load (name : Token) :
    Follows stack [.load name] (lookup name.toValue) (· :: stack) := by
  intro w earlier _
  rw [lookup_apply]
  cases hfind : w.chain.find? (.string name.lexeme) with
  | some v => exact ⟨.completed (run_cons_of_ok (step_load_of_some hfind) []), rfl⟩
  | none => exact ⟨ended_failed (run_singleton_of_error (step_load_of_none hfind)), rfl⟩

theorem follows_store (name : Token) (v : Value) :
    Follows (v :: stack) [.store name] (assign name.toValue v) fun _ => v :: stack := by
  intro w earlier _
  rw [assign_apply]
  cases hassign : w.chain.assign? (.string name.lexeme) v with
  | some chain =>
    have hrun : run [.store name] (.ofWorld (v :: stack) earlier w) =
        (⟨v :: stack, chain, earlier ++ written w.events⟩, none) :=
      run_cons_of_ok (step_store_of_some rfl hassign) []
    have hdone := hrun
    rw [← Text.append_empty (written w.events)] at hdone
    obtain ⟨hend, hchain⟩ := ended_happen (fun _ => v :: stack)
      (e := .assigned (.string name.lexeme) v) (w := { w with chain }) List.prefix_rfl hrun hdone
    exact ⟨hend, (congrArg List.length hchain).trans (length_assign? hassign)⟩
  | none =>
    exact ⟨ended_failed (run_singleton_of_error (step_store_of_none rfl hassign)), rfl⟩

theorem follows_define (name : Token) (v : Value) :
    Follows (v :: stack) [.define name] (define name.toValue v) fun _ => stack := by
  intro w earlier hw
  rw [define_apply]
  have hrun : run [.define name] (.ofWorld (v :: stack) earlier w) =
      (⟨stack, w.chain.define (.string name.lexeme) v, earlier ++ written w.events⟩, none) := rfl
  have hdone := hrun
  rw [← Text.append_empty (written w.events)] at hdone
  obtain ⟨hend, hchain⟩ := ended_happen (fun _ => stack) (e := .declared (.string name.lexeme) v)
    (w := { w with chain := w.chain.define (.string name.lexeme) v }) List.prefix_rfl hrun hdone
  exact ⟨hend, (congrArg List.length hchain).trans (length_define _ _ hw)⟩

theorem follows_print (v : Value) :
    Follows (v :: stack) [.print] (happen (.printed v)) fun _ => stack := by
  intro w earlier _
  have hdone : run [.print] (.ofWorld (v :: stack) earlier w) =
      (⟨stack, w.chain, earlier ++ (written w.events ++ (Event.printed v).output)⟩, none) := by
    rw [← Text.append_assoc]
    rfl
  obtain ⟨hend, hchain⟩ := ended_happen (fun _ => stack) List.nil_prefix rfl hdone
  exact ⟨hend, congrArg List.length hchain⟩

/-- An instruction for an operator that has a result or calls for other operands. -/
theorem follows_operator {Q : Value → Prop} {i : Instr} {operands : List Value}
    {result : Except Fault Value} (hproper : Proper Q result)
    (hstep : ∀ m, m.stack = operands → step i m = m.answer stack result) :
    Follows operands [i] (ofExcept result) (· :: stack) := by
  intro w earlier _
  have hi := hstep (.ofWorld operands earlier w) rfl
  obtain ⟨r, rfl, -⟩ | ⟨e, rfl, -⟩ := hproper
  · exact ⟨.completed (run_cons_of_ok hi []), rfl⟩
  · exact ⟨ended_failed (run_singleton_of_error hi), rfl⟩

theorem follows_unary {operator : Token} (hk : operator.kind ∈ [TokenKind.bang, .minus])
    (v : Value) :
    Follows (v :: stack) [.unary operator] (ofExcept (applyUnary operator.toValue v))
      (· :: stack) := by
  refine follows_operator (proper_applyUnary steady_all hk v) ?_
  intro m hm
  simp only [step, hm]

theorem follows_binary {operator : Token} (hk : operator.kind ∈ binaryKinds) (l r : Value) :
    Follows (r :: l :: stack) [.binary operator] (ofExcept (applyBinary operator.toValue l r))
      (· :: stack) := by
  refine follows_operator (proper_applyBinary steady_all hk trivial trivial) ?_
  intro m hm
  simp only [step, hm]

/-- A scope entered and left. If the body fails the machine leaves it open. -/
theorem follows_inNewScope {code : List Instr} {body : Exec Unit}
    (h : Follows stack code body fun _ => stack) :
    Follows stack (.enter :: (code ++ [.leave])) (inNewScope body) fun _ => stack := by
  intro w earlier _
  obtain ⟨hend, hlength⟩ := h { w with chain := {} :: w.chain } earlier (List.cons_ne_nil _ _)
  have henter : step .enter (.ofWorld stack earlier w) =
      .ok (.ofWorld stack earlier { w with chain := {} :: w.chain }) := rfl
  rw [inNewScope_apply]
  generalize body { w with chain := {} :: w.chain } = final at hend hlength
  obtain ⟨result, ⟨chain, events, trace⟩⟩ := final
  obtain ⟨inner, outer, rfl⟩ := List.exists_cons_of_length_eq_add_one hlength
  refine ⟨?_, Nat.succ.inj hlength⟩
  have hscopes (opened : Chain) : opened ++ inner :: outer = (opened ++ [inner]) ++ outer := by simp
  cases hend with
  | completed hrun =>
    exact .completed ((run_cons_of_ok henter _).trans (run_append_of_none hrun [.leave]))
  | failed hrun =>
    dsimp only at hrun
    rw [hscopes] at hrun
    exact .failed ((run_cons_of_ok henter _).trans (run_append_of_some hrun [.leave]))
  | brokenOff hbefore hrun =>
    dsimp only at hrun
    rw [hscopes] at hrun
    have hprefix := (List.prefix_cons_inj Instr.enter).mpr
      (hbefore.trans (List.prefix_append code [.leave]))
    exact .brokenOff hprefix ((run_cons_of_ok henter _).trans hrun)

theorem follows_evaluate {e : Expr} (he : e.WellFormed) :
    Follows stack e.code (evaluate e.toValue) (· :: stack) := by
  induction e generalizing stack with
  | literal v => exact follows_push v
  | grouping e ih => exact ih he
  | unary operator e ih =>
    obtain ⟨hk, -, hright⟩ := he
    exact (ih hright).bind fun v => follows_unary hk v
  | binary l operator r ihl ihr =>
    obtain ⟨hk, -, hl, hr⟩ := he
    exact (ihl hl).bind fun a => (ihr hr).bind fun b => follows_binary hk a b
  | «variable» name => exact follows_load name
  | assign name e ih =>
    obtain ⟨-, -, hvalue⟩ := he
    have hstore (v : Value) : Follows (v :: stack) ([.store name] ++ [])
        (assign name.toValue v >>= fun _ => pure v) (· :: stack) :=
      (follows_store name v).bind fun _ => follows_pure v rfl
    exact (ih hvalue).bind hstore

theorem follows_initialValue {initializer : Option Expr} (h : ∀ e ∈ initializer, e.WellFormed) :
    Follows stack (initializer.elim [.push .nil] Expr.code)
      (initialValue (initializer.elim .nil Expr.toValue)) (· :: stack) := by
  cases initializer with
  | none => exact follows_push .nil
  | some e =>
    rw [Option.elim_some, Option.elim_some, initialValue_toValue]
    exact follows_evaluate (h e rfl)

mutual

theorem follows_execute : {s : Stmt} → s.WellFormed →
    Follows stack s.code (execute s.toValue) fun _ => stack
  | .expression _, h => (follows_evaluate h).bind fun v => follows_discard v
  | .print _, h => (follows_evaluate h).bind fun v => follows_print v
  | .var name _, h => (follows_initialValue h.2.2).bind fun v => follows_define name v
  | .block body, h => by
    have hbody : Follows stack ([] ++ (Stmt.codes body ++ [])) (do
        happen (.entered (Stmt.toValues body).length)
        executeAll (Stmt.toValues body)
        happen .left) fun _ => stack :=
      (follows_happen rfl rfl).bind fun _ =>
        (follows_executeAll body h).bind fun _ => follows_happen rfl rfl
    rw [List.nil_append, List.append_nil] at hbody
    exact follows_inNewScope hbody

theorem follows_executeAll : (ss : List Stmt) →
    Stmt.AllConsist (fun v => v.isLox) (fun _ => True) ss →
    Follows stack (Stmt.codes ss) (executeAll (Stmt.toValues ss)) fun _ => stack
  | [], _ => follows_pure () rfl
  | s :: ss, h => (follows_execute (s := s) h.1).bind fun _ => follows_executeAll ss h.2

end

end LoxLang.Run

namespace LoxLang.Session

open Run

end LoxLang.Session
