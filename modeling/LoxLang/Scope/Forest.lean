import LoxLang.Scope.Basic

/-!
Environments that share their enclosing ones. Environments are numbered in the order in which they
are made, so each one is enclosed by one of a smaller number. Names are looked for from the inside
out.
-/
namespace LoxLang

structure Environment where
  enclosing : Option Nat
  scope : Scope

structure Forest where
  environments : List Environment := []

namespace Forest

/-- Makes an environment; its number is the number of those before it. -/
def new (f : Forest) (enclosing : Option Nat) : Forest :=
  ⟨f.environments ++ [⟨enclosing, {}⟩]⟩

def scope (f : Forest) (e : Nat) : Scope :=
  (f.environments[e]?.map (·.scope)).getD {}

/-- The environment around `e`, if there is one. -/
def outer? (f : Forest) (e : Nat) : Option { outer : Nat // outer < e } :=
  match f.environments[e]?.bind (·.enclosing) with
  | some outer => if h : outer < e then some ⟨outer, h⟩ else none
  | none => none

def contains (f : Forest) (e : Nat) (name : Value) : Bool :=
  if (f.scope e).binds name then true
  else
    match f.outer? e with
    | some ⟨outer, _⟩ => f.contains outer name
    | none => false
termination_by e

def find? (f : Forest) (e : Nat) (name : Value) : Option Value :=
  if (f.scope e).binds name then (f.scope e).find? name
  else
    match f.outer? e with
    | some ⟨outer, _⟩ => f.find? outer name
    | none => none
termination_by e

/-- Binds a name in one environment. -/
def define (f : Forest) (e : Nat) (name value : Value) : Forest :=
  ⟨f.environments.modify e fun env => { env with scope := env.scope.insert name value }⟩

/-- Gives a new value to the binding that a name means, if it means one. -/
def assign? (f : Forest) (e : Nat) (name value : Value) : Option Forest :=
  if (f.scope e).binds name then some (f.define e name value)
  else
    match f.outer? e with
    | some ⟨outer, _⟩ => f.assign? outer name value
    | none => none
termination_by e

end Forest

end LoxLang
