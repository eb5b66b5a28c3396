import LoxLang.Diagnostic
import LoxLang.Number.Decimal
import LoxLang.Source.Segment

/-!
The tokens and the problems of a source text.

A token stands on the line where its segment starts, a string on the line where it ends. Comments
and blanks leave nothing behind, strings without an end and stray characters a problem.
-/
namespace LoxLang.Source

inductive LexicalProblem where
  | unexpectedCharacter | unterminatedString
deriving DecidableEq, Repr

def LexicalProblem.message : LexicalProblem → String
  | .unexpectedCharacter => "Unexpected character."
  | .unterminatedString => "Unterminated string."

structure LexicalError where
  line : Nat
  problem : LexicalProblem
deriving DecidableEq, Repr

def LexicalError.diagnostic (e : LexicalError) : Diagnostic :=
  .lexical e.line e.problem.message

structure Scan where
  tokens : List Token
  errors : List LexicalError

/-- The number of line ends in a text. -/
def lineEnds (cs : List Char) : Nat :=
  cs.count '\n'

/-- The number that digits with an optional fraction denote. -/
def numeral (cs : List Char) : Float :=
  let integral := cs.takeWhile (· != '.')
  let fraction := cs.drop (integral.length + 1)
  let digits := Text.ofDigits 0 (integral ++ fraction)
  (Number.Decimal.mk digits (-(fraction.length : Int))).toFloat

/-- The text between the two quotes of a string. -/
def unquoted (cs : List Char) : String :=
  String.ofList (cs.drop 1).dropLast

/-- What a segment leaves behind when it starts on the given line. -/
def Segment.yield (line : Nat) (s : Segment) : Except LexicalError (Option Token) :=
  let lexeme := String.ofList s.text
  let last := line + lineEnds s.text
  match s.kind with
  | .word => .ok (some ⟨.ofWord lexeme, lexeme, .nil, line⟩)
  | .number => .ok (some ⟨.number, lexeme, .number (numeral s.text), line⟩)
  | .string => .ok (some ⟨.string, lexeme, .string (unquoted s.text), last⟩)
  | .operator kind => .ok (some ⟨kind, lexeme, .nil, line⟩)
  | .comment | .blank => .ok none
  | .unterminated => .error ⟨last, .unterminatedString⟩
  | .stray => .error ⟨line, .unexpectedCharacter⟩

/-- The tokens and problems of segments of which the first starts on the given line. -/
def scanSegments (line : Nat) : List Segment → Scan
  | [] => ⟨[⟨.eof, "", .nil, line⟩], []⟩
  | s :: rest =>
    let later := scanSegments (line + lineEnds s.text) rest
    match s.yield line with
    | .ok (some t) => { later with tokens := t :: later.tokens }
    | .ok none => later
    | .error e => { later with errors := e :: later.errors }

/-- The tokens of a source text, the last of which marks its end, and its lexical problems. -/
def scan (source : String) : Scan :=
  scanSegments 1 (segments source.toList)

def Scan.diagnostics (s : Scan) : List Diagnostic :=
  s.errors.map (·.diagnostic)

end LoxLang.Source
