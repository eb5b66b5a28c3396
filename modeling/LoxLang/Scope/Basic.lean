import LoxLang.Value.Equality

/-!
Scopes and chains of scopes.

A scope binds names to values in the order of their first definition. A chain lists the scopes that
are in force, the innermost first; a name means its binding in the first scope that has one.
-/
namespace LoxLang

structure Scope where
  bindings : List (Value × Value) := []

namespace Scope

def find? (s : Scope) (name : Value) : Option Value :=
  (s.bindings.find? fun b => b.1.same name).map (·.2)

def binds (s : Scope) (name : Value) : Bool :=
  s.bindings.any fun b => b.1.same name

/-- Gives the name its new value, at its old place if it was bound. -/
def insertBinding (name value : Value) : List (Value × Value) → List (Value × Value)
  | [] => [(name, value)]
  | (n, v) :: rest =>
    if n.same name then (n, value) :: rest else (n, v) :: insertBinding name value rest

def insert (s : Scope) (name value : Value) : Scope :=
  ⟨insertBinding name value s.bindings⟩

end Scope

/-- A chain of scopes, the innermost first. -/
abbrev Chain := List Scope

namespace Chain

def find? (chain : Chain) (name : Value) : Option Value :=
  chain.findSome? (·.find? name)

/-- Binds a name in the innermost scope. -/
def define (name value : Value) : Chain → Chain
  | [] => [Scope.insert {} name value]
  | s :: outer => s.insert name value :: outer

/-- Gives a new value to the binding that a name means, if it means one. -/
def assign? (name value : Value) : Chain → Option Chain
  | [] => none
  | s :: outer =>
    if s.binds name then some (s.insert name value :: outer)
    else (assign? name value outer).map (s :: ·)

end Chain

end LoxLang
