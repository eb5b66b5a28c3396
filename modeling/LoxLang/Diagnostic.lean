import LoxLang.Tree.Basic

/-!
Reported problems. A report keeps the problems since the last reset, the text of all problems ever
added to it, and whether the kept ones hold a static or a runtime problem.
-/
namespace LoxLang

inductive DiagnosticKind where
  | lexical | syntactic | runtime
deriving DecidableEq, Repr

structure Diagnostic where
  kind : DiagnosticKind
  line : Int
  message : Text
  /-- The place in the line, with a leading space, or nothing. -/
  place : String
deriving DecidableEq, Repr

namespace Diagnostic

def text (d : Diagnostic) : Text :=
  match d.kind with
  | .runtime => d.message ++ "\n[line " ++ toString d.line ++ "]"
  | _ => "[line " ++ toString d.line ++ "] Error" ++ d.place ++ ": " ++ d.message

def lexical (line : Int) (message : Text) : Diagnostic :=
  ⟨.lexical, line, message, ""⟩

/-- A problem with a token, which is named unless it is the end of the program. -/
def atToken (t : Token) (message : Text) : Diagnostic :=
  ⟨.syntactic, t.line, message, if t.kind = .eof then " at end" else " at '" ++ t.lexeme ++ "'"⟩

def runtime (line : Int) (message : Text) : Diagnostic :=
  ⟨.runtime, line, message, ""⟩

end Diagnostic

structure Report where
  diagnostics : List Diagnostic := []
  written : Text := ""
  hadError : Bool := false
  hadRuntimeError : Bool := false

namespace Report

def addAll (r : Report) (ds : List Diagnostic) : Report where
  diagnostics := r.diagnostics ++ ds
  written := r.written ++ Text.join (ds.map fun d => d.text ++ "\n")
  hadError := r.hadError || ds.any (·.kind != .runtime)
  hadRuntimeError := r.hadRuntimeError || ds.any (·.kind == .runtime)

def add (r : Report) (d : Diagnostic) : Report :=
  r.addAll [d]

/-- Forgets the problems but not the text already written. -/
def reset (r : Report) : Report :=
  { written := r.written }

end Report

end LoxLang
