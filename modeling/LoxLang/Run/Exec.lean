import LoxLang.Run.Operator
import LoxLang.Run.Trace
import LoxLang.Scope.Basic

/-!
Running trees.

Operands are evaluated from left to right before the operator is looked at. What happens is traced
on the spot: a declaration or an assignment after its effect, what is printed before it is printed.
Everything that happened before a fault stays, and a block leaves its scope on every way out.
-/
namespace LoxLang.Run

/-- The scopes in force, the events so far and the trace. -/
structure World where
  chain : Chain
  events : Array Event
  trace : Trace

abbrev Exec := ExceptT Fault (StateM World)

def ofExcept {α : Type} (e : Except Fault α) : Exec α :=
  ExceptT.mk (pure e)

/-- Traces an event and lets it happen, unless its line is due and cannot be written. -/
def happen (e : Event) : Exec Unit := do
  let w ← get
  match w.trace.write e with
  | .ok trace => set { w with events := w.events.push e, trace }
  | .error text => throw (.breakdown (.unwritable text))

/-- The token that a value is and the name that it stands for. -/
def asName (v : Value) : Except Fault (LooseToken × Value) := do
  let t ← asToken v .lexeme
  if t.lexeme.isCollection then .error (.breakdown (.misfit (.notAName t.lexeme)))
  else .ok (t, t.lexeme)

def lookup (v : Value) : Exec Value := do
  let (t, name) ← ofExcept (asName v)
  match (← get).chain.find? name with
  | some value => return value
  | none => throw (.runtime (.undefined t))

def assign (v value : Value) : Exec Unit := do
  let (t, name) ← ofExcept (asName v)
  match (← get).chain.assign? name value with
  | some chain =>
    modify fun w => { w with chain }
    happen (.assigned name value)
  | none => throw (.runtime (.undefined t))

def define (v value : Value) : Exec Unit := do
  let (_, name) ← ofExcept (asName v)
  modify fun w => { w with chain := w.chain.define name value }
  happen (.declared name value)

/-- Runs the body in a new innermost scope, which is gone afterwards. -/
def inNewScope (body : Exec Unit) : Exec Unit :=
  fun w =>
    let (result, w') := body { w with chain := {} :: w.chain }
    (result, { w' with chain := w'.chain.tail })

def evaluate : Value → Exec Value
  | .node (.literal value) => return value
  | .node (.grouping e) => evaluate e
  | .node (.variable name) => lookup name
  | .node (.assign name e) => do
    let value ← evaluate e
    assign name value
    return value
  | .node (.unary operator right) => do
    let r ← evaluate right
    ofExcept (applyUnary operator r)
  | .node (.binary left operator right) => do
    let l ← evaluate left
    let r ← evaluate right
    ofExcept (applyBinary operator l r)
  | v => throw (.breakdown (.misfit (.notAnExpression v)))

/-- The value of an initializer; a variable without one starts as nil. -/
def initialValue : Value → Exec Value
  | .nil => return .nil
  | v => evaluate v

mutual

def execute : Value → Exec Unit
  | .node (.expression e) => do
    let _ ← evaluate e
  | .node (.print e) => do
    let value ← evaluate e
    happen (.printed value)
  | .node (.var name initializer) => do
    let value ← initialValue initializer
    define name value
  | .node (.block statements) =>
    inNewScope do
      happen (.entered statements.length)
      executeAll statements
      happen .left
  | v => throw (.breakdown (.misfit (.notAStatement v)))

def executeAll : List Value → Exec Unit
  | [] => return ()
  | s :: ss => do
    execute s
    executeAll ss

end

/-- Passes a fault on, a runtime error only when it is traced. -/
def passOn : Fault → Exec Unit
  | .runtime e => do
    happen (.failed e.token.line e.message)
    throw (.runtime e)
  | .breakdown b => throw (.breakdown b)

def executeProgram (statements : List Value) : Exec Unit := do
  happen (.started statements.length)
  tryCatch (executeAll statements) passOn

end LoxLang.Run
