import LoxLang.Text.Basic
import LoxLang.Token.Kind

/-!
Everything that a program can compute with or be made of.

The values of the language itself are nil, booleans, numbers and strings of characters. A tree file
can put anything anywhere, a statement inside a literal, a list where an operator belongs or a
ragged string, so data, tokens and tree nodes are values too, and each part of a node is a value of
whatever kind.

Data handed in from outside can hold results that are no numbers. Such a part is the same only as
itself, so it carries a mark that tells it from the others; outside of data there is no need for it.
-/
namespace LoxLang

mutual

inductive Value where
  | nil
  | bool (b : Bool)
  | number (x : Float)
  | string (s : Text)
  | integer (n : Int)
  | noNumber (mark : Nat)
  | list (items : List Value)
  | dict (members : List (Text × Value))
  | token (kind : TokenKind) (lexeme literal : Value) (line : Int)
  | node (n : Node)

inductive Node where
  | literal (value : Value)
  | grouping (expression : Value)
  | unary (operator right : Value)
  | binary (left operator right : Value)
  | variable (name : Value)
  | assign (name value : Value)
  | expression (expression : Value)
  | print (expression : Value)
  | var (name initializer : Value)
  | block (statements : List Value)

end

instance : Inhabited Value := ⟨.nil⟩

/-- A token as it may stand in a tree, with any values for its text and its literal. -/
structure LooseToken where
  kind : TokenKind
  lexeme : Value
  literal : Value
  line : Int

namespace Value

def ofLoose (t : LooseToken) : Value :=
  .token t.kind t.lexeme t.literal t.line

/-- The token that a value is, if it is one. -/
def token? : Value → Option LooseToken
  | .token kind lexeme literal line => some ⟨kind, lexeme, literal, line⟩
  | _ => none

/-- Lists and dictionaries cannot serve as names. -/
def isCollection : Value → Bool
  | .list _ | .dict _ => true
  | _ => false

/-- Whether a value is one of the four kinds of the language. -/
def isLox : Value → Bool
  | .nil | .bool _ | .number _ | .string (.whole _) => true
  | _ => false

end Value

end LoxLang
