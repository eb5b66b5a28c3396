import LoxLang.Command.Job

/-! The command itself, on the real disk and terminal. -/
namespace LoxLang.Command

def usageText : String :=
  "usage: lox [-h] [-v] [--emit-ast LOX_FILE | --ast AST_JSON_FILE] [script]\n"

def stopMessage : Grammar.Stop → String
  | .raised blame => blame.problem.message
  | .pastEnd => "list index out of range"

def Failure.message : Failure → Text
  | .isADirectory => "Is a directory"
  | .nameTooLong => "File name too long"
  | .notText => "not in UTF-8"
  | .unreadable .malformed => "not a JSON text"
  | .unreadable (.tooManyDigits n) => Number.digitLimitMessage n
  | .overflow e => e.message
  | .escaped (.breakdown b) => b.message
  | .escaped (.unparsed stop) => stopMessage stop

/-- A text as a terminal shows it, with question marks for halves. -/
def shown (t : Text) : String :=
  String.ofList t.chars

/-- The number under which reading a directory as a file is refused. -/
def directoryCode : UInt32 := 21

/-- What there is under a path. -/
def entryAt (p : Path) : IO (Except Obstacle Entry) := do
  if p.text.contains '\x00' then return .error .missing
  try
    return .ok (.file (← IO.FS.readBinFile p.text))
  catch
    | .noFileOrDirectory .. => return .error .missing
    | .inappropriateType _ code _ =>
      return if code = directoryCode then .ok .directory else .error .missing
    | .invalidArgument .. => return .error .tooLong
    | e => throw e

/-- Shows what a command did and gives its exit status. -/
def conclude (deed : Deed) : IO UInt32 := do
  IO.print (shown deed.output)
  IO.eprint (shown deed.errors)
  match deed.verdict with
  | .exit status => return status.toUInt32
  | .failed f =>
    IO.eprintln (shown f.message)
    return 1

/-- Asks for lines and shows at once what each of them prints and reports. -/
partial def askLines (input : IO.FS.Stream) (s : Session) : IO Deed := do
  IO.print prompt
  (← IO.getStdout).flush
  let line ← input.getLine
  if line.isEmpty then
    IO.println ""
    return { verdict := .exit 0, traced := s.trace.text }
  let cs := (inputLines (unifyLines line.toList)).headD []
  match answerLine { s with output := "", report := {} } cs with
  | none => return { verdict := .exit 0, traced := s.trace.text }
  | some (.ok _, s) =>
    IO.print (shown s.output)
    IO.eprint (shown s.report.written)
    askLines input s
  | some (.error e, s) => return concluded s (.failed (.escaped e))

/-- Runs the program that the options name, or the lines that are typed in. -/
def runReal (o : Options) (s : Session) : IO Deed := do
  match given? o.tree, given? o.script with
  | some p, _ => return runTree p (← entryAt p) s
  | none, some p => return runScript p (← entryAt p) s
  | none, none => askLines (← IO.getStdin) s

/-- Does what the options ask for. -/
def performReal (o : Options) : IO UInt32 := do
  match given? o.emit with
  | some p =>
    let deed := emitTree p (← entryAt p) (← entryAt (treePath p))
    if let some text := deed.saved then
      IO.FS.writeFile (treePath p).text text
    conclude deed
  | none =>
    let s := Session.start o.verbosity
    if let some text := s.trace.text then
      IO.FS.writeFile tracePath.text text
    let deed ← runReal o s
    if let some text := deed.traced then
      IO.FS.writeFile tracePath.text text
    conclude deed

end LoxLang.Command

def main (arguments : List String) : IO UInt32 := do
  match LoxLang.Command.Options.parse arguments with
  | .error .usage =>
    IO.eprint LoxLang.Command.usageText
    return 2
  | .error .help =>
    IO.print LoxLang.Command.usageText
    return 0
  | .ok options => LoxLang.Command.performReal options
