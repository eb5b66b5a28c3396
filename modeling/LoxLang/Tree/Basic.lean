import LoxLang.Value.Basic

/-!
Programs as the grammar builds them: expressions and statements whose names and operators are
tokens. `toValue` forgets that the parts fit, which is the form in which programs are run and saved.
-/
namespace LoxLang

structure Token where
  kind : TokenKind
  lexeme : String
  literal : Value
  line : Int
deriving Inhabited

def Token.loose (t : Token) : LooseToken :=
  ⟨t.kind, .string t.lexeme, t.literal, t.line⟩

def Token.toValue (t : Token) : Value :=
  .ofLoose t.loose

inductive Expr where
  | literal (value : Value)
  | grouping (inner : Expr)
  | unary (operator : Token) (right : Expr)
  | binary (left : Expr) (operator : Token) (right : Expr)
  | variable (name : Token)
  | assign (name : Token) (value : Expr)

inductive Stmt where
  | expression (e : Expr)
  | print (e : Expr)
  | var (name : Token) (initializer : Option Expr)
  | block (body : List Stmt)

def Expr.toValue : Expr → Value
  | .literal value => .node (.literal value)
  | .grouping inner => .node (.grouping inner.toValue)
  | .unary operator right => .node (.unary operator.toValue right.toValue)
  | .binary left operator right => .node (.binary left.toValue operator.toValue right.toValue)
  | .variable name => .node (.variable name.toValue)
  | .assign name value => .node (.assign name.toValue value.toValue)

mutual

def Stmt.toValue : Stmt → Value
  | .expression e => .node (.expression e.toValue)
  | .print e => .node (.print e.toValue)
  | .var name initializer =>
    .node (.var name.toValue (initializer.elim .nil Expr.toValue))
  | .block body => .node (.block (Stmt.toValues body))

/-- A list of statements, one by one. -/
def Stmt.toValues : List Stmt → List Value
  | [] => []
  | s :: ss => s.toValue :: Stmt.toValues ss

end

end LoxLang
