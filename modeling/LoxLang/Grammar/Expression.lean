import LoxLang.Grammar.Parse

/-!
The grammar of expressions.

    assignment  -> IDENTIFIER "=" assignment | equality
    equality    -> comparison ( ( "!=" | "==" ) comparison )*
    comparison  -> term ( ( ">" | ">=" | "<" | "<=" ) term )*
    term        -> factor ( ( "-" | "+" ) factor )*
    factor      -> unary ( ( "/" | "*" ) unary )*
    unary       -> ( "!" | "-" ) unary | primary
    primary     -> NUMBER | STRING | "true" | "false" | "nil" | IDENTIFIER | "(" assignment ")"

The left side of an assignment is parsed as an equality and must turn out to be a variable;
otherwise the equals sign is blamed and the left side stands for the whole.
-/
namespace LoxLang.Grammar

open Parse

/-- The levels of binary operators, from the loosest to the tightest. -/
inductive Level where
  | equality | comparison | term | factor
deriving DecidableEq, Repr

def Level.operators : Level → List TokenKind
  | .equality => [.bangEqual, .equalEqual]
  | .comparison => [.greater, .greaterEqual, .less, .lessEqual]
  | .term => [.minus, .plus]
  | .factor => [.slash, .star]

/-- The level of the operands; those of the tightest level are unary. -/
def Level.tighter : Level → Option Level
  | .equality => some .comparison
  | .comparison => some .term
  | .term => some .factor
  | .factor => none

mutual

def assignmentFuel : Nat → Parse Expr
  | 0 => pastEnd
  | fuel + 1 => do
    let left ← levelFuel fuel .equality
    match ← accept [.equal] with
    | none => return left
    | some equals =>
      let equalsPos := (← position) - 1
      let value ← assignmentFuel fuel
      match left with
      | .variable name => return .assign name value
      | _ => do
        complain ⟨equalsPos, equals, .invalidTarget⟩
        return left

/-- An operand and the chain of operators and operands after it. -/
def levelFuel : Nat → Level → Parse Expr
  | 0, _ => pastEnd
  | fuel + 1, level => do
    let first ← operandFuel fuel level
    chainFuel fuel level first

def operandFuel : Nat → Level → Parse Expr
  | 0, _ => pastEnd
  | fuel + 1, level =>
    match level.tighter with
    | some tighter => levelFuel fuel tighter
    | none => unaryFuel fuel

/-- The operators of a level and their right operands, each applied to all that stands before. -/
def chainFuel : Nat → Level → Expr → Parse Expr
  | 0, _, _ => pastEnd
  | fuel + 1, level, left => do
    match ← accept level.operators with
    | none => return left
    | some operator =>
      let right ← operandFuel fuel level
      chainFuel fuel level (.binary left operator right)

def unaryFuel : Nat → Parse Expr
  | 0 => pastEnd
  | fuel + 1 => do
    match ← accept [.bang, .minus] with
    | some operator => return .unary operator (← unaryFuel fuel)
    | none => primaryFuel fuel

def primaryFuel : Nat → Parse Expr
  | 0 => pastEnd
  | fuel + 1 => do
    match ← accept [.falseWord, .trueWord, .nilWord, .number, .string, .identifier, .leftParen] with
    | none => raiseHere .expectExpression
    | some t =>
      match t.kind with
      | .falseWord => return .literal (.bool false)
      | .trueWord => return .literal (.bool true)
      | .nilWord => return .literal .nil
      | .identifier => return .variable t
      | .leftParen => do
        let inner ← assignmentFuel fuel
        let _ ← consume .rightParen .expectParenAfterExpression
        return .grouping inner
      | _ => return .literal t.literal

end

def assignment : Parse Expr := fueled assignmentFuel

def expression : Parse Expr := assignment

/-- An expression whose operators are no looser than the level. -/
def binary (level : Level) : Parse Expr := fueled (levelFuel · level)

def unary : Parse Expr := fueled unaryFuel

def primary : Parse Expr := fueled primaryFuel

end LoxLang.Grammar
