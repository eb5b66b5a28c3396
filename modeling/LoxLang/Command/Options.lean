import LoxLang.Text.Digit

/-!
The arguments of the command line.

`-v` may be repeated and run together, also after an equals sign. A long option may be cut short as
long as it is not ambiguous, and its value follows an equals sign or is the next argument; `--` after
an equals sign leaves the value empty. After `--` as an argument all arguments are plain. At most one
plain argument names a script, and a program is either saved or loaded, not both.
-/
namespace LoxLang.Command

structure Options where
  verbosity : Nat := 0
  /-- The script whose tree is to be saved. -/
  emit : Option String := none
  /-- The tree file to run. -/
  tree : Option String := none
  /-- The script to run. -/
  script : Option String := none
deriving DecidableEq, Repr

/-- Why the arguments ask for no work. -/
inductive Refusal where
  | usage
  | help
deriving DecidableEq, Repr

/-- The options of one letter. -/
inductive Short where
  | verbose | help
deriving DecidableEq, Repr

inductive Long where
  | help | emit | tree
deriving DecidableEq, Repr

def Short.ofChar? : Char → Option Short
  | 'v' => some .verbose
  | 'h' => some .help
  | _ => none

def Long.names : List (List Char × Long) :=
  [("--help".toList, .help), ("--emit-ast".toList, .emit), ("--ast".toList, .tree)]

/-- What an argument is taken for before its neighbours are looked at. -/
inductive Argument where
  | plain (text : String)
  | separator
  | short (first : Short) (rest : List Char)
  | long (option : Long) (value : Option String)
  /-- An option that takes no value, with an empty one. -/
  | unusable
  | unknown
deriving DecidableEq, Repr

/-- A minus sign and a number, which is a plain argument; a line end after it does not count. -/
def isNegativeNumber : List Char → Bool
  | '-' :: cs =>
    let isDigit (c : Char) := (Text.digitValue? c).isSome
    let cs := if cs.getLast? = some '\n' then cs.dropLast else cs
    let integral := cs.takeWhile isDigit
    match cs.drop integral.length with
    | [] => !integral.isEmpty
    | '.' :: fraction => !fraction.isEmpty && fraction.all isDigit
    | _ => false
  | _ => false

/-- An argument that names no option: plain if it is a number or has a space in it. -/
def unnamed (cs : List Char) : Argument :=
  if isNegativeNumber cs || cs.contains ' ' then .plain (String.ofList cs) else .unknown

/-- An argument with two minus signs in front. -/
def classifyLong (cs : List Char) : Except Refusal Argument :=
  let name := cs.takeWhile (· != '=')
  let value :=
    if name.length < cs.length then some (String.ofList (cs.drop (name.length + 1))) else none
  match Long.names.filter fun (n, _) => n = name with
  | (_, option) :: _ => .ok (.long option value)
  | [] =>
    match Long.names.filter fun (n, _) => name.isPrefixOf n with
    | [] => .ok (unnamed cs)
    | [(_, option)] => .ok (.long option value)
    | _ => .error .usage

def classify (text : String) : Except Refusal Argument :=
  match text.toList with
  | ['-', '-'] => .ok .separator
  | '-' :: '-' :: cs => classifyLong ('-' :: '-' :: cs)
  | '-' :: c :: cs =>
    match Short.ofChar? c, cs with
    | some first, '=' :: more => .ok (if more = [] then .unusable else .short first more)
    | some first, cs => .ok (.short first cs)
    | none, cs => .ok (unnamed ('-' :: c :: cs))
  | _ => .ok (.plain text)

/-- Classifies the arguments up to `--`, after which they are all plain. -/
def classifyAll : List String → Except Refusal (List Argument)
  | [] => .ok []
  | text :: rest => do
    match ← classify text with
    | .separator => .ok (.separator :: rest.map .plain)
    | argument => .ok (argument :: (← classifyAll rest))

/-- The options of one letter that are run together. -/
def runTogether (first : Short) : List Char → Except Refusal (List Short)
  | [] => .ok [first]
  | c :: cs =>
    match Short.ofChar? c with
    | some next => do .ok (first :: (← runTogether next cs))
    | none => .error .usage

/-- The options so far, whether the script is settled and whether an argument was left over. -/
structure State where
  options : Options := {}
  settled : Bool := false
  extra : Bool := false
deriving DecidableEq, Repr

namespace State

def takeShort (s : State) : Short → Except Refusal State
  | .verbose => .ok { s with options.verbosity := s.options.verbosity + 1 }
  | .help => .error .help

/-- A value for an option; saving and loading exclude each other. -/
def takeLong (s : State) (option : Long) (value : String) : Except Refusal State :=
  match option with
  | .help => .error .usage
  | .emit =>
    if s.options.tree.isSome then .error .usage
    else .ok { s with options.emit := some value }
  | .tree =>
    if s.options.emit.isSome then .error .usage
    else .ok { s with options.tree := some value }

/-- The arguments after `--`, of which the first names the script if none is named yet. -/
def takePlain (s : State) (settled : Bool) : List Argument → State
  | [] => { s with extra := s.extra || settled }
  | [.plain text] =>
    if settled then { s with extra := true }
    else { s with options.script := some text, settled := true }
  | _ => { s with extra := true }

end State

/-- Takes the arguments from left to right. -/
def takeAll (s : State) : List Argument → Except Refusal State
  | [] => .ok s
  | .separator :: rest => .ok (s.takePlain s.settled rest)
  | .unknown :: rest => takeAll { s with extra := true } rest
  | .short first cs :: rest => do
    takeAll (← (← runTogether first cs).foldlM State.takeShort s) rest
  | .unusable :: _ => .error .usage
  | .long .help value :: _ => .error (if value.isSome then .usage else .help)
  | .long option (some value) :: rest => do
    takeAll (← s.takeLong option (if value = "--" then "" else value)) rest
  | .long option none :: .plain value :: rest => do takeAll (← s.takeLong option value) rest
  | .long _ none :: _ => .error .usage
  | .plain text :: rest =>
    if s.settled then takeAll { s with extra := true } rest
    else
      let s := { s with options.script := some text, settled := true }
      match rest with
      | .separator :: plain => .ok { s with extra := s.extra || !plain.isEmpty }
      | rest => takeAll s rest

/-- The options that the arguments of a command ask for. -/
def Options.parse (arguments : List String) : Except Refusal Options := do
  let s ← takeAll {} (← classifyAll arguments)
  if s.extra then .error .usage else .ok s.options

end LoxLang.Command
