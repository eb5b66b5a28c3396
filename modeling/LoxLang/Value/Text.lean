import LoxLang.Number.Decimal
import LoxLang.Text.Quoted
import LoxLang.Value.Basic

/-!
The texts of a value: `printed` is what a program prints, `text` stands in messages, and `described`
shows a value inside another one, with strings between quotes and nodes with all their parts.
-/
namespace LoxLang

/-- The name of the class of a node. -/
def Node.className : Node → String
  | .literal _ => "Literal"
  | .grouping _ => "Grouping"
  | .unary .. => "Unary"
  | .binary .. => "Binary"
  | .variable _ => "Variable"
  | .assign .. => "Assign"
  | .expression _ => "Expression"
  | .print _ => "Print"
  | .var .. => "Var"
  | .block _ => "Block"

namespace Value

/-- The name of the class of a value. -/
def className : Value → String
  | .nil => "NoneType"
  | .bool _ => "bool"
  | .number _ => "float"
  | .string _ => "str"
  | .integer _ => "int"
  | .noNumber _ => "float"
  | .list _ => "list"
  | .dict _ => "dict"
  | .token .. => "Token"
  | .node n => n.className

/-- The name of a kind of value; values outside the language have the names of their classes. -/
def typeName : Value → String
  | .nil => "nil"
  | .bool _ => "boolean"
  | .number _ | .noNumber _ => "number"
  | .string _ => "string"
  | v => v.className

def describedBool (b : Bool) : String :=
  if b then "True" else "False"

/-- The items between round brackets; a single one keeps a comma. -/
def describedTuple : List String → String
  | [item] => "(" ++ item ++ ",)"
  | items => "(" ++ ", ".intercalate items ++ ")"

mutual

/-- A value as it is shown inside another one. -/
def described : Value → String
  | .nil => "None"
  | .bool b => describedBool b
  | .number x => Number.text x
  | .string s => Text.quoted s
  | .integer n => toString n
  | .noNumber _ => Number.plain.notANumber
  | .list items => "[" ++ ", ".intercalate (describedAll items) ++ "]"
  | .dict members => "\x7b" ++ ", ".intercalate (describedMembers members) ++ "\x7d"
  | .token kind lexeme literal line =>
    "Token(type=<TokenType." ++ kind.name ++ ": " ++ toString kind.ordinal ++ ">, lexeme=" ++
      lexeme.described ++ ", literal=" ++ literal.described ++ ", line=" ++ toString line ++ ")"
  | .node (.literal value) => "Literal(value=" ++ value.described ++ ")"
  | .node (.grouping e) => "Grouping(expression=" ++ e.described ++ ")"
  | .node (.unary operator right) =>
    "Unary(operator=" ++ operator.described ++ ", right=" ++ right.described ++ ")"
  | .node (.binary left operator right) =>
    "Binary(left=" ++ left.described ++ ", operator=" ++ operator.described ++ ", right=" ++
      right.described ++ ")"
  | .node (.variable name) => "Variable(name=" ++ name.described ++ ")"
  | .node (.assign name value) =>
    "Assign(name=" ++ name.described ++ ", value=" ++ value.described ++ ")"
  | .node (.expression e) => "Expression(expression=" ++ e.described ++ ")"
  | .node (.print e) => "Print(expression=" ++ e.described ++ ")"
  | .node (.var name initializer) =>
    "Var(name=" ++ name.described ++ ", initializer=" ++ initializer.described ++ ")"
  | .node (.block statements) =>
    "Block(statements=" ++ describedTuple (describedAll statements) ++ ")"

def describedAll : List Value → List String
  | [] => []
  | v :: vs => v.described :: describedAll vs

def describedMembers : List (Text × Value) → List String
  | [] => []
  | (key, v) :: rest => (Text.quoted key ++ ": " ++ v.described) :: describedMembers rest

end

/-- A value as it stands in a message. -/
def text : Value → Text
  | .string s => s
  | .token kind lexeme literal _ => kind.name ++ " " ++ lexeme.text ++ " " ++ literal.text
  | v => v.described

/-- A number without the `.0` of a whole one. -/
def printedNumber (x : Float) : String :=
  let s := Number.text x
  if s.endsWith ".0" then (s.dropEnd 2).toString else s

/-- What a program prints. -/
def printed : Value → Text
  | .nil => "nil"
  | .bool b => if b then "true" else "false"
  | .number x => printedNumber x
  | v => v.text

end Value

end LoxLang
