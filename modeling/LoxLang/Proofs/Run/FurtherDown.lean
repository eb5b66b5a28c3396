import LoxLang.Proofs.Grammar.Relocation
import LoxLang.Proofs.Run.Safety
import LoxLang.Proofs.Source.Joining

/-!
Running trees further down in a text. The lines of tokens do not matter in a run, except that a
runtime error names one. So a well-formed tree does the same further down as where it stood, in any
scopes, of which there are as many afterwards.
-/
namespace LoxLang

def LooseToken.down (k : Nat) (t : LooseToken) : LooseToken :=
  { t with line := t.line + k }

/-- Tokens at later positions and a number of lines further down. -/
def Grammar.Relocation.further (shift k : Nat) : Relocation :=
  ⟨shift, Token.down k, fun _ => rfl, fun _ => rfl⟩

end LoxLang

namespace LoxLang.Run

variable {α β : Type} {k : Nat}

def RuntimeError.down (k : Nat) : RuntimeError → RuntimeError
  | .mismatch operator need => .mismatch (operator.down k) need
  | .undefined name => .undefined (name.down k)

/-- The same fault, with the token to blame further down. -/
def Fault.down (k : Nat) : Fault → Fault
  | .runtime e => .runtime (e.down k)
  | .breakdown b => .breakdown b

/-- The two computations do the same, and there are as many scopes afterwards. The second stops if
and as the first does, on a token further down. -/
def Alike (k : Nat) (m m' : Exec α) : Prop :=
  ∀ w : World, w.chain ≠ [] →
    m' w = ((m w).1.mapError (Fault.down k), (m w).2) ∧ (m w).2.chain.length = w.chain.length

theorem alike_ofExcept {x x' : Except Fault α} (hx : x' = x.mapError (Fault.down k)) :
    Alike k (ofExcept x) (ofExcept x') := by
  intro w _
  rw [hx]
  exact ⟨rfl, rfl⟩

theorem alike_pure (a : α) : Alike k (pure a : Exec α) (pure a) :=
  alike_ofExcept rfl

theorem Alike.bind {m m' : Exec α} {f f' : α → Exec β} (hm : Alike k m m')
    (hf : ∀ a, Alike k (f a) (f' a)) : Alike k (m >>= f) (m' >>= f') := by
  intro w hne
  obtain ⟨heq, hlength⟩ := hm w hne
  rw [bind_apply, bind_apply, heq]
  generalize m w = final at hlength
  obtain ⟨result, w'⟩ := final
  cases result with
  | error fault => exact ⟨rfl, hlength⟩
  | ok a =>
    have hne' : w'.chain ≠ [] := by
      rw [← List.length_pos_iff, hlength]
      exact List.length_pos_iff.mpr hne
    obtain ⟨heq', hlength'⟩ := hf a w' hne'
    exact ⟨heq', hlength'.trans hlength⟩

/-- An event stops on the trace or it does not, in both alike. -/
theorem happen_down (e : Event) (w : World) :
    happen e w = ((happen e w).1.mapError (Fault.down k), (happen e w).2) ∧
      (happen e w).2.chain = w.chain := by
  rw [happen_apply]
  cases w.trace.write e <;> exact ⟨rfl, rfl⟩

theorem alike_happen (e : Event) : Alike k (happen e) (happen e) :=
  fun w _ => ⟨(happen_down e w).1, congrArg List.length (happen_down (k := k) e w).2⟩

theorem alike_lookup (t : Token) : Alike k (lookup t.toValue) (lookup (t.down k).toValue) := by
  intro w _
  rw [lookup_apply, lookup_apply]
  dsimp only [Token.down]
  cases w.chain.find? (.string t.lexeme) <;> exact ⟨rfl, rfl⟩

theorem length_assign? {name value : Value} {chain chain' : Chain}
    (h : chain.assign? name value = some chain') : chain'.length = chain.length := by
  induction chain generalizing chain' with
  | nil => cases h
  | cons s outer ih =>
    unfold Chain.assign? at h
    split at h
    · cases h
      rfl
    · obtain ⟨outer', h', rfl⟩ := Option.map_eq_some_iff.mp h
      rw [List.length_cons, List.length_cons, ih h']

theorem length_define (name value : Value) {chain : Chain} (h : chain ≠ []) :
    (chain.define name value).length = chain.length := by
  cases chain with
  | nil => exact absurd rfl h
  | cons s outer => rfl

theorem alike_assign (t : Token) (v : Value) :
    Alike k (assign t.toValue v) (assign (t.down k).toValue v) := by
  intro w _
  rw [assign_apply, assign_apply]
  dsimp only [Token.down]
  cases hassign : w.chain.assign? (.string t.lexeme) v with
  | some chain =>
    obtain ⟨heq, hchain⟩ := happen_down (k := k) (.assigned (.string t.lexeme) v) { w with chain }
    exact ⟨heq, (congrArg List.length hchain).trans (length_assign? hassign)⟩
  | none => exact ⟨rfl, rfl⟩

theorem alike_define (t : Token) (v : Value) :
    Alike k (define t.toValue v) (define (t.down k).toValue v) := by
  intro w hne
  rw [define_apply, define_apply]
  obtain ⟨heq, hchain⟩ := happen_down (k := k) (.declared (.string t.lexeme) v)
    { w with chain := w.chain.define (.string t.lexeme) v }
  exact ⟨heq, (congrArg List.length hchain).trans (length_define _ _ hne)⟩

theorem Alike.inNewScope {body body' : Exec Unit} (h : Alike k body body') :
    Alike k (inNewScope body) (inNewScope body') := by
  intro w _
  obtain ⟨heq, hlength⟩ := h { w with chain := {} :: w.chain } (List.cons_ne_nil _ _)
  rw [inNewScope_apply, inNewScope_apply, heq]
  exact ⟨rfl, by rw [List.length_tail, hlength]; rfl⟩

theorem applyUnary_down {operator : Token} (hk : operator.kind ∈ [TokenKind.bang, .minus]) (v : Value) :
    applyUnary (operator.down k).toValue v =
      (applyUnary operator.toValue v).mapError (Fault.down k) := by
  obtain ⟨kind, lexeme, literal, line⟩ := operator
  have hk' : kind = .bang ∨ kind = .minus := by simpa using hk
  obtain rfl | rfl := hk'
  · rfl
  · cases v <;> rfl

theorem applyNumbers_down {t : LooseToken} (hk : t.kind ∈ binaryKinds)
    (heq : t.kind ≠ .equalEqual) (hne : t.kind ≠ .bangEqual) (hplus : t.kind ≠ .plus) (x y : Float) :
    applyNumbers (t.down k) x y = (applyNumbers t x y).mapError (Fault.down k) := by
  unfold applyNumbers
  dsimp only [LooseToken.down]
  split
  case h_7 =>
    obtain ⟨q, hq⟩ := exists_divide x y
    rw [hq]
    rfl
  case h_8 => simp_all [binaryKinds]
  all_goals rfl

theorem applyBinary_down {operator : Token} (hk : operator.kind ∈ binaryKinds) (a b : Value) :
    applyBinary (operator.down k).toValue a b =
      (applyBinary operator.toValue a b).mapError (Fault.down k) := by
  have htoken : asToken operator.toValue .kind = .ok operator.loose := rfl
  have htoken' : asToken (operator.down k).toValue .kind = .ok (operator.loose.down k) := rfl
  unfold applyBinary
  rw [htoken, htoken']
  simp only [bind, Except.bind]
  dsimp only [LooseToken.down]
  split
  · rfl
  · rfl
  · rfl
  · rfl
  · rfl
  · next heq hne hplus => exact applyNumbers_down hk heq hne hplus _ _
  · rfl

open Grammar

section

variable (shift : Nat)

theorem alike_evaluate {e : Expr} (he : e.WellFormed) :
    Alike k (evaluate e.toValue) (evaluate ((Relocation.further shift k).expr e).toValue) := by
  induction e with
  | literal v => exact alike_pure v
  | grouping e ih => exact ih he
  | unary operator e ih =>
    obtain ⟨hk, -, hright⟩ := he
    exact (ih hright).bind fun v => alike_ofExcept (applyUnary_down hk v)
  | binary l operator r ihl ihr =>
    obtain ⟨hk, -, hl, hr⟩ := he
    exact (ihl hl).bind fun a => (ihr hr).bind fun b =>
      alike_ofExcept (applyBinary_down hk a b)
  | «variable» name => exact alike_lookup name
  | assign name e ih =>
    obtain ⟨-, -, hvalue⟩ := he
    exact (ih hvalue).bind fun v => (alike_assign name v).bind fun _ => alike_pure v

theorem alike_initialValue {initializer : Option Expr} (h : ∀ e ∈ initializer, e.WellFormed) :
    Alike k (initialValue (initializer.elim .nil Expr.toValue))
      (initialValue ((initializer.map (Relocation.further shift k).expr).elim .nil Expr.toValue)) := by
  cases initializer with
  | none => exact alike_pure Value.nil
  | some e =>
    rw [Option.map_some, Option.elim_some, Option.elim_some, initialValue_toValue, initialValue_toValue]
    exact alike_evaluate shift (h e rfl)

theorem length_stmts (ss : List Stmt) :
    (Stmt.toValues ((Relocation.further shift k).stmts ss)).length = (Stmt.toValues ss).length := by
  induction ss with
  | nil => rfl
  | cons s ss ih => simp only [Relocation.stmts, Stmt.toValues, List.length_cons, ih]

theorem alike_entered (body : List Stmt) :
    Alike k (happen (.entered (Stmt.toValues body).length))
      (happen (.entered (Stmt.toValues ((Relocation.further shift k).stmts body)).length)) := by
  rw [length_stmts]
  exact alike_happen _

mutual

theorem alike_execute : {s : Stmt} → s.WellFormed →
    Alike k (execute s.toValue) (execute ((Relocation.further shift k).stmt s).toValue)
  | .expression _, h => (alike_evaluate shift h).bind fun _ => alike_pure ()
  | .print _, h => (alike_evaluate shift h).bind fun v => alike_happen (.printed v)
  | .var name _, h => (alike_initialValue shift h.2.2).bind fun v => alike_define name v
  | .block body, h => Alike.inNewScope ((alike_entered shift body).bind fun _ =>
      (alike_executeAll body h).bind fun _ => alike_happen .left)

theorem alike_executeAll : (ss : List Stmt) →
    Stmt.AllConsist (fun v => v.isLox) (fun _ => True) ss →
    Alike k (executeAll (Stmt.toValues ss))
      (executeAll (Stmt.toValues ((Relocation.further shift k).stmts ss)))
  | [], _ => alike_pure ()
  | s :: ss, h => (alike_execute (s := s) h.1).bind fun _ => alike_executeAll ss h.2

end

end

end LoxLang.Run
