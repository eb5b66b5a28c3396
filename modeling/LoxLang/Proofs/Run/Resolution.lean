import Mathlib.Data.Finset.Insert
import Mathlib.Data.Finset.Dedup
import LoxLang.Proofs.Run.Machine

/-!
Names that are resolved without running.

A walk over a program in the order of evaluation keeps the names that each scope binds and stops at
the first name that no scope binds. The undefined variables that stop a run are those at which the
walk stops, and every lookup and assignment of a run goes to the scope that the walk tells, whatever
the values are.
-/
namespace LoxLang

open Run

/-- The names that the scopes of a chain bind, the innermost first. -/
abbrev Names := List (Finset String)

namespace Names

/-- The place of the innermost scope that binds a name. -/
def home? (names : Names) (name : String) : Option Nat :=
  names.findIdx? (name ∈ ·)

def declare (name : String) : Names → Names
  | [] => [insert name ∅]
  | s :: outer => insert name s :: outer

/-- Refuses a name that no scope binds. -/
def check (names : Names) (name : Token) : Except Token Unit :=
  if (names.home? name.lexeme).isSome then .ok () else .error name

theorem home?_cons (s : Finset String) (outer : Names) (name : String) :
    home? (s :: outer) name = if name ∈ s then some 0 else (home? outer name).map (· + 1) := by
  simp [home?, List.findIdx?_cons]

end Names

def Value.string? : Value → Option String
  | .string (.whole s) => some s
  | _ => none

/-- The names that a scope binds; what is bound to other values is out of reach for identifiers. -/
def Scope.names (s : Scope) : Finset String :=
  (s.bindings.filterMap (·.1.string?)).toFinset

def Chain.names (chain : Chain) : Names :=
  chain.map (·.names)

def Expr.resolve (names : Names) : Expr → Except Token Unit
  | .literal _ => .ok ()
  | .grouping e => e.resolve names
  | .unary _ e => e.resolve names
  | .binary l _ r => do
    l.resolve names
    r.resolve names
  | .variable name => names.check name
  | .assign name e => do
    e.resolve names
    names.check name

mutual

/-- The names bound after a statement, or the first name in it that no scope binds. -/
def Stmt.resolve : Stmt → Names → Except Token Names
  | .expression e, names => do
    e.resolve names
    return names
  | .print e, names => do
    e.resolve names
    return names
  | .var name initializer, names => do
    initializer.elim (.ok ()) (Expr.resolve names)
    return names.declare name.lexeme
  | .block body, names => do
    let inner ← Stmt.resolveAll body (∅ :: names)
    return inner.tail

def Stmt.resolveAll : List Stmt → Names → Except Token Names
  | [], names => return names
  | s :: ss, names => do
    let names' ← s.resolve names
    Stmt.resolveAll ss names'

end

end LoxLang

namespace LoxLang.Run

/-- The same for one instruction. -/
def Instr.resolve (names : Names) : Instr → Except Token Names
  | .load name | .store name => do
    names.check name
    return names
  | .define name => return names.declare name.lexeme
  | .enter => return ∅ :: names
  | .leave => return names.tail
  | .push _ | .unary _ | .binary _ | .discard | .print => return names

/-- The same for code, one instruction after the other. -/
def resolveCode (names : Names) (code : List Instr) : Except Token Names :=
  code.foldlM Instr.resolve names

theorem resolveCode_cons (names : Names) (i : Instr) (code : List Instr) :
    resolveCode names (i :: code) = (do resolveCode (← i.resolve names) code) :=
  rfl

theorem resolveCode_append (names : Names) (code code' : List Instr) :
    resolveCode names (code ++ code') = (do resolveCode (← resolveCode names code) code') :=
  List.foldlM_append

theorem resolveCode_singleton (names : Names) (i : Instr) :
    resolveCode names [i] = i.resolve names :=
  bind_pure (i.resolve names)

/-! The walk over a program is the walk over its code. -/

theorem resolveCode_expr (e : Expr) (names : Names) :
    resolveCode names e.code = (do e.resolve names; return names) := by
  induction e with
  | literal v => rfl
  | grouping e ih => exact ih
  | unary operator e ih =>
    rw [Expr.code, resolveCode_append, ih, Expr.resolve]
    simp only [bind_assoc, pure_bind]
    rfl
  | binary l operator r ihl ihr =>
    rw [Expr.code, resolveCode_append, ihl, Expr.resolve]
    simp only [bind_assoc, pure_bind, resolveCode_append, ihr]
    rfl
  | «variable» name => exact resolveCode_singleton names _
  | assign name e ih =>
    rw [Expr.code, resolveCode_append, ih, Expr.resolve]
    simp only [bind_assoc, pure_bind, resolveCode_singleton]
    rfl

theorem resolveCode_initializer (initializer : Option Expr) (names : Names) :
    resolveCode names (initializer.elim [.push .nil] Expr.code) =
      (do initializer.elim (.ok ()) (Expr.resolve names); return names) := by
  cases initializer with
  | none => rfl
  | some e => exact resolveCode_expr e names

mutual

theorem resolveCode_stmt : (s : Stmt) → (names : Names) →
    resolveCode names s.code = s.resolve names
  | .expression e, names => by
    rw [Stmt.code, resolveCode_append, resolveCode_expr, Stmt.resolve]
    simp only [bind_assoc, pure_bind]
    rfl
  | .print e, names => by
    rw [Stmt.code, resolveCode_append, resolveCode_expr, Stmt.resolve]
    simp only [bind_assoc, pure_bind]
    rfl
  | .var name initializer, names => by
    rw [Stmt.code, resolveCode_append, resolveCode_initializer, Stmt.resolve]
    simp only [bind_assoc, pure_bind]
    rfl
  | .block body, names => by
    rw [Stmt.code, resolveCode_cons, Stmt.resolve]
    change resolveCode (∅ :: names) (Stmt.codes body ++ [.leave]) = _
    rw [resolveCode_append, resolveCode_stmts body]
    rfl

theorem resolveCode_stmts : (ss : List Stmt) → (names : Names) →
    resolveCode names (Stmt.codes ss) = Stmt.resolveAll ss names
  | [], _ => rfl
  | s :: ss, names => by
    rw [Stmt.codes, resolveCode_append, resolveCode_stmt s, Stmt.resolveAll]
    simp only [resolveCode_stmts ss]

end

end LoxLang.Run

namespace LoxLang

/-! What scopes and chains do to the names that they bind. -/

theorem Value.same_string (v : Value) (name : String) :
    v.same (.string name) = decide (v.string? = some name) := by
  cases v with
  | string s => cases s <;> simp [same, string?]
  | node n => cases n <;> simp [same, string?]
  | _ => simp [same, sameAmount, amount?, string?]

namespace Scope

theorem mem_names {s : Scope} {name : String} :
    name ∈ s.names ↔ ∃ b ∈ s.bindings, b.1.same (.string name) := by
  simp [names, Value.same_string]

theorem binds_iff {s : Scope} {name : String} : s.binds (.string name) ↔ name ∈ s.names := by
  simp [binds, mem_names]

theorem find?_eq_none_iff {s : Scope} {name : String} :
    s.find? (.string name) = none ↔ name ∉ s.names := by
  simp [find?, mem_names]

end Scope

namespace Chain

theorem names_cons (s : Scope) (outer : Chain) : names (s :: outer) = s.names :: names outer :=
  rfl

/-- A lookup goes to the innermost scope that binds the name. -/
theorem find?_eq (chain : Chain) (name : String) :
    chain.find? (.string name) = (chain.names.home? name).bind fun k =>
      chain[k]?.bind (·.find? (.string name)) := by
  induction chain with
  | nil => rfl
  | cons s outer ih =>
    rw [names_cons, Names.home?_cons]
    change List.findSome? _ (s :: outer) = _
    rw [List.findSome?_cons]
    by_cases hs : name ∈ s.names
    · obtain ⟨v, hv⟩ := Option.ne_none_iff_exists'.mp (Scope.find?_eq_none_iff.not_left.mpr hs)
      simp [hs, hv]
    · rw [if_neg hs, Scope.find?_eq_none_iff.mpr hs]
      change Chain.find? outer _ = _
      rw [ih, Option.bind_map]
      rfl

/-- An assignment changes the innermost scope that binds the name, and no other. -/
theorem assign?_eq (chain : Chain) (name : String) (v : Value) :
    chain.assign? (.string name) v = (chain.names.home? name).map fun k =>
      chain.modify k (·.insert (.string name) v) := by
  induction chain with
  | nil => rfl
  | cons s outer ih =>
    rw [names_cons, Names.home?_cons, assign?]
    by_cases hs : name ∈ s.names
    · rw [if_pos hs, if_pos (Scope.binds_iff.mpr hs)]
      rfl
    · rw [if_neg hs, if_neg (Scope.binds_iff.not.mpr hs), ih, Option.map_map, Option.map_map]
      rfl

theorem find?_eq_none_iff {chain : Chain} {name : String} :
    chain.find? (.string name) = none ↔ chain.names.home? name = none := by
  simp [find?, Names.home?, names, List.findSome?_eq_none_iff, List.findIdx?_eq_none_iff,
    Scope.find?_eq_none_iff]

end Chain

theorem Names.check_of_none {names : Names} {name : Token} (h : names.home? name.lexeme = none) :
    names.check name = .error name := by
  rw [check, h]
  rfl

end LoxLang

namespace LoxLang.Run

/-! Operators fail for want of other operands only. -/

theorem exists_mismatch_of_applyUnary {operator v : Value} {e : RuntimeError}
    (h : applyUnary operator v = .error (.runtime e)) : ∃ t need, e = .mismatch t need := by
  have hresponds := responds_applyUnary steady_all operator v
  rw [h] at hresponds
  cases hresponds with
  | mismatch t need => exact ⟨t, need, rfl⟩

theorem exists_mismatch_of_applyBinary {operator l r : Value} {e : RuntimeError}
    (h : applyBinary operator l r = .error (.runtime e)) : ∃ t need, e = .mismatch t need := by
  have hresponds := responds_applyBinary steady_all operator (a := l) (b := r) trivial trivial
  rw [h] at hresponds
  cases hresponds with
  | mismatch t need => exact ⟨t, need, rfl⟩

end LoxLang.Run
