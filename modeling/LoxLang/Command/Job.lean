import LoxLang.Command.Disk
import LoxLang.Command.Options
import LoxLang.Session
import LoxLang.Tree.File

/-!
What a command does: it saves the tree of a script, runs a saved tree or a script, or runs the lines
of its input one by one.

The exit status is 65 after a static problem, 70 after a runtime error and 66 when there is no such
file.
-/
namespace LoxLang.Command

/-- What a command breaks off on. -/
inductive Failure where
  | isADirectory
  | nameTooLong
  | notText
  | unreadable (e : Json.ReadError)
  | overflow (e : LoadError)
  | escaped (e : Session.Escape)

inductive Verdict where
  | exit (status : Nat)
  | failed (f : Failure)

/-- What a command shows and leaves behind: a saved tree, a trace. -/
structure Deed where
  verdict : Verdict
  output : Text := ""
  errors : Text := ""
  saved : Option String := none
  traced : Option String := none

def dataError : Nat := 65

def noInput : Nat := 66

def softwareError : Nat := 70

/-- The exit status that a report calls for. -/
def exitStatus (r : Report) : Nat :=
  if r.hadError then dataError else if r.hadRuntimeError then softwareError else 0

def missingMessage (p : Path) : String :=
  "Error: file " ++ p.text ++ " not found\n"

def invalidTreeMessage (p : Path) (e : LoadError) : Text :=
  "Error: invalid AST file " ++ p.text ++ ": " ++ e.message ++ "\n"

/-- Why a file cannot be taken in. -/
inductive ReadFailure where
  | missing
  | failed (f : Failure)

/-- The text of what a path leads to. -/
def readEntry : Except Obstacle Entry → Except ReadFailure String
  | .error .missing => .error .missing
  | .error .tooLong => .error (.failed .nameTooLong)
  | .ok .directory => .error (.failed .isADirectory)
  | .ok (.file bytes) =>
    match textOf? bytes with
    | some text => .ok text
    | none => .error (.failed .notText)

/-- A command that could not take in its file. -/
def unread (p : Path) : ReadFailure → Deed
  | .missing => { verdict := .exit noInput, errors := missingMessage p }
  | .failed f => { verdict := .failed f }

def treeEnding : String := ".ast.json"

/-- The file beside a script that its tree is saved in. -/
def treePath (p : Path) : Path :=
  p.extend treeEnding

/--
Saves the tree of a script, unless the script has a static problem. What the paths of the script and
of its tree lead to is given.
-/
def emitTree (p : Path) (script target : Except Obstacle Entry) : Deed :=
  match readEntry script with
  | .error e => unread p e
  | .ok source =>
    let reading := Session.readSource source
    let report := ({} : Report).addAll reading.diagnostics
    match reading.statements with
    | .error stop => { verdict := .failed (.escaped (.unparsed stop)), errors := report.written }
    | .ok statements =>
      if report.hadError then { verdict := .exit dataError, errors := report.written }
      else
        match target with
        | .error .tooLong => { verdict := .failed .nameTooLong }
        | .ok .directory => { verdict := .failed .isADirectory }
        | _ =>
          { verdict := .exit 0
            output := (treePath p).text ++ "\n"
            saved := TreeFile.write? Json.indented (Stmt.toValues statements) }

/-- A session that came to the given verdict. -/
def concluded (s : Session) (verdict : Verdict) : Deed :=
  { verdict, output := s.output, errors := s.report.written, traced := s.trace.text }

/-- A program that ran to its end, or until it was given up. -/
def programDeed : Session.Ending × Session → Deed
  | (.ok _, s) => concluded s (.exit (exitStatus s.report))
  | (.error e, s) => concluded s (.failed (.escaped e))

/-- Runs a saved tree. -/
def runTree (p : Path) (file : Except Obstacle Entry) (s : Session) : Deed :=
  match readEntry file with
  | .error e => { unread p e with traced := s.trace.text }
  | .ok text =>
    match TreeFile.read text with
    | .error (.unreadable e) => concluded s (.failed (.unreadable e))
    | .error (.unloadable e) =>
      if e.isOverflow then concluded s (.failed (.overflow e))
      else { concluded s (.exit dataError) with errors := invalidTreeMessage p e }
    | .ok statements => programDeed (s.interpret statements)

/-- Runs a script. -/
def runScript (p : Path) (file : Except Obstacle Entry) (s : Session) : Deed :=
  match readEntry file with
  | .error e => { unread p e with traced := s.trace.text }
  | .ok source => programDeed (s.runSource source)

def prompt : String := "> "

/-- What a line of input does to a session; nothing is left to do after the word to quit. -/
def answerLine (s : Session) (line : List Char) : Option (Session.Ending × Session) :=
  let word := String.ofList (Text.trim line)
  if word = ":q" ∨ word = ":quit" then none
  else if word = "" then some (.ok true, s)
  else
    match s.runSource (String.ofList line) with
    | (.ok completed, s) => some (.ok completed, s.reset)
    | (.error e, s) => some (.error e, s)

/-- The lines of an input; what follows the last line end is a line only if it is not empty. -/
def inputLines : List Char → List (List Char)
  | [] => []
  | c :: cs =>
    if c = '\n' then [] :: inputLines cs
    else
      match inputLines cs with
      | [] => [[c]]
      | line :: lines => (c :: line) :: lines

/-- Asks for lines until the word to quit, the end of the input or what escapes from a line. -/
def answerLines (s : Session) : List (List Char) → Except Session.Escape Unit × Session
  | [] => (.ok (), { s with output := s.output ++ prompt ++ "\n" })
  | line :: lines =>
    let s := { s with output := s.output ++ prompt }
    match answerLine s line with
    | some (.ok _, s) => answerLines s lines
    | some (.error e, s) => (.error e, s)
    | none => (.ok (), s)

/-- Runs the lines of the input. -/
def runLines (input : String) (s : Session) : Deed :=
  match answerLines s (inputLines (unifyLines input.toList)) with
  | (.ok (), s) => concluded s (.exit 0)
  | (.error e, s) => concluded s (.failed (.escaped e))

/-- A file name that counts: an empty one is as good as none. -/
def given? : Option String → Option Path
  | some text => if text = "" then none else some (.ofText text)
  | none => none

def tracePath : Path := .ofText "debug.txt"

namespace Disk

/-- The place of the trace file. -/
def tracePlace (d : Disk) : List (List Char) :=
  d.here ++ tracePath.names

/-- Saves the tree of a script beside it. -/
def emit (d : Disk) (p : Path) : Deed × Disk :=
  let deed := emitTree p (d.entry p) (d.entry (treePath p))
  match deed.saved, d.follow p with
  | some text, .ok (place, _) => (deed, d.write ((Path.mk [] place).extend treeEnding).names text)
  | _, _ => (deed, d)

/-- Runs the program that the options name, or the input. -/
def run (d : Disk) (o : Options) (input : String) (s : Session) : Deed :=
  match given? o.tree, given? o.script with
  | some p, _ => runTree p (d.entry p) s
  | none, some p => runScript p (d.entry p) s
  | none, none => runLines input s

/-- Does what the options ask for. A trace file is made before anything is read. -/
def perform (d : Disk) (o : Options) (input : String) : Deed × Disk :=
  match given? o.emit with
  | some p => d.emit p
  | none =>
    let s := Session.start o.verbosity
    match s.trace.text, d.entry tracePath with
    | none, _ => (d.run o input s, d)
    | some _, .ok .directory => ({ verdict := .failed .isADirectory }, d)
    | some text, _ =>
      let d := d.write d.tracePlace text
      let deed := d.run o input s
      (deed, d.write d.tracePlace (deed.traced.getD text))

end Disk

end LoxLang.Command
