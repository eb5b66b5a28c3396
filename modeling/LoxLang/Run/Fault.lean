import LoxLang.Value.Text

/-!
What can stop a run: a runtime error of the program, or a breakdown of the interpreter itself. It
breaks down on a tree whose parts do not fit, on a division of doubles by zero and on a trace that
it cannot write. Programs that the grammar built never come to that.
-/
namespace LoxLang.Run

/-- What an operator needs and did not get. -/
inductive Need where
  | number | numbers | numbersOrStrings
deriving DecidableEq, Repr

def Need.message : Need → String
  | .number => "Operand must be a number."
  | .numbers => "Operands must be numbers."
  | .numbersOrStrings => "Operands must be two numbers or two strings."

inductive RuntimeError where
  | mismatch (operator : LooseToken) (need : Need)
  | undefined (name : LooseToken)

namespace RuntimeError

/-- The token to blame. -/
def token : RuntimeError → LooseToken
  | .mismatch operator _ => operator
  | .undefined name => name

def message : RuntimeError → Text
  | .mismatch _ need => need.message
  | .undefined name => "Undefined variable '" ++ name.lexeme.text ++ "'."

end RuntimeError

/-- What a token is needed for. -/
inductive TokenPart where
  | kind | lexeme
deriving DecidableEq, Repr

def TokenPart.name : TokenPart → String
  | .kind => "type"
  | .lexeme => "lexeme"

/-- A part of a tree that does not fit where it stands. -/
inductive Misfit where
  | notAStatement (v : Value)
  | notAnExpression (v : Value)
  | notUnary (operator : LooseToken)
  | notBinary (operator : LooseToken)
  | notAToken (v : Value) (needed : TokenPart)
  | notAName (v : Value)

/-- The class of a value with the place where it is declared. -/
def fullClassName : Value → String
  | .node n => "lox.ast." ++ n.className
  | .token .. => "lox.tokens.Token"
  | v => v.className

def Misfit.message : Misfit → Text
  | .notAStatement v => "execute: unexpected node type <class '" ++ fullClassName v ++ "'>"
  | .notAnExpression v => "evaluate: unexpected node type <class '" ++ fullClassName v ++ "'>"
  | .notUnary operator => "unknown unary operator " ++ operator.lexeme.text
  | .notBinary operator => "unknown binary operator " ++ operator.lexeme.text
  | .notAToken v needed => "'" ++ v.className ++ "' object has no attribute '" ++ needed.name ++ "'"
  | .notAName v => "unhashable type: '" ++ v.className ++ "'"

/-- Why a ragged text has no bytes, with the place of the first halves in it. -/
def unwritableMessage (r : Ragged) : String :=
  let first := (r.points.takeWhile fun p => !p.isHalf).length
  match (r.points.drop first).takeWhile Point.isHalf with
  | [p] =>
    "'utf-8' codec can't encode character " ++ Text.quoted (.ofPoints [p]) ++ " in position " ++
      toString first ++ ": surrogates not allowed"
  | halves =>
    "'utf-8' codec can't encode characters in position " ++ toString first ++ "-" ++
      toString (first + halves.length - 1) ++ ": surrogates not allowed"

/-- What the interpreter itself fails on. -/
inductive Breakdown where
  | misfit (m : Misfit)
  | zeroDivision
  | unwritable (text : Ragged)

def Breakdown.message : Breakdown → Text
  | .misfit m => m.message
  | .zeroDivision => "float division by zero"
  | .unwritable text => unwritableMessage text

inductive Fault where
  | runtime (e : RuntimeError)
  | breakdown (b : Breakdown)

end LoxLang.Run
