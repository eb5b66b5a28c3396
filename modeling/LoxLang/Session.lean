import LoxLang.Diagnostic
import LoxLang.Grammar.Statement
import LoxLang.Run.Exec
import LoxLang.Source.Scan

/-!
Sessions: programs run one after another on the same global variables, with one report, one output
and one trace. The output and the report go to streams that take every text.
-/
namespace LoxLang

open Run

structure Session where
  globals : Scope := {}
  report : Report := {}
  output : Text := ""
  trace : Trace

namespace Session

def start (level : Int) : Session :=
  { trace := .start level }

/-- What escapes from a session: a breakdown of a run, or a stop of the parser. -/
inductive Escape where
  | breakdown (b : Breakdown)
  | unparsed (stop : Grammar.Stop)

/-- How a program ended: completed, stopped by a runtime error, or by what escaped. -/
abbrev Ending := Except Escape Bool

/-- Runs statements in a chain of scopes. -/
def interpretIn (s : Session) (statements : List Value) (chain : Chain) :
    Ending × Chain × Session :=
  let (result, world) := (executeProgram statements).run.run ⟨chain, #[], s.trace⟩
  let s := { s with output := s.output ++ written world.events, trace := world.trace }
  match result with
  | .ok () => (.ok true, world.chain, s)
  | .error (.runtime e) =>
    (.ok false, world.chain,
      { s with report := s.report.add (.runtime e.token.line e.message) })
  | .error (.breakdown b) => (.error (.breakdown b), world.chain, s)

/-- Runs statements on the global variables. -/
def interpret (s : Session) (statements : List Value) : Ending × Session :=
  let (ending, chain, s) := s.interpretIn statements [s.globals]
  (ending, { s with globals := chain.head?.getD {} })

/-- What a source text is taken for: the statements without syntax errors, and all problems. -/
structure Reading where
  statements : Except Grammar.Stop (List Stmt)
  diagnostics : List Diagnostic

def readSource (source : String) : Reading :=
  let scan := Source.scan source
  let outcome := Grammar.parse scan.tokens
  ⟨outcome.result, scan.diagnostics ++ outcome.complaints.map (·.diagnostic)⟩

/-- Runs a source text; statements with syntax errors are left out. -/
def runSource (s : Session) (source : String) : Ending × Session :=
  let reading := readSource source
  let s := { s with report := s.report.addAll reading.diagnostics }
  match reading.statements with
  | .ok statements => s.interpret (Stmt.toValues statements)
  | .error stop => (.error (.unparsed stop), s)

/-- Writes a line of its own into the trace. -/
def debug (s : Session) (message : Text) : Except Breakdown Session :=
  match s.trace.write (.note message) with
  | .ok trace => .ok { s with trace }
  | .error text => .error (.unwritable text)

def reset (s : Session) : Session :=
  { s with report := s.report.reset }

def close (s : Session) : Session :=
  { s with trace := s.trace.close }

end Session

end LoxLang
