import LoxLang.Grammar.Stepper

/-!
The rules of the grammar over a list of tokens with a position, each written as a loop or a
recursion without a bound of its own. A rule that has stepped over a token asks for it afterwards as
the token before the position, and every such glance back is recorded.

A rule calls the rules by way of a record of them. The record for a depth is the one whose calls may
be nested so deep, and a reader has no value at all where a call would be deeper. So a reader that
has a value has made all its calls, and one that would go on forever has none at any depth.
-/
namespace LoxLang.Grammar.Indexed

/-- The position, what was reported so far, and the positions at which the token before was asked
for. -/
structure State where
  pos : Nat := 0
  complaints : List Complaint := []
  glances : List Nat := []

abbrev Reader := ExceptT Stop (StateT State Option)

variable {α : Type} (ts : List Token)

def position : Reader Nat :=
  return (← get).pos

def peek : Reader Token := do
  match ts[(← get).pos]? with
  | some t => return t
  | none => throw .pastEnd

/-- The token before the position; in front of the first token this is the last one. -/
def previous : Reader Token := do
  let s ← get
  set { s with glances := s.glances ++ [s.pos] }
  match (Stepper.mk ts s.pos).previous with
  | .ok t => return t
  | .error stop => throw stop

def atEnd : Reader Bool := do
  return (← peek ts).kind = .eof

def check (kind : TokenKind) : Reader Bool := do
  if ← atEnd ts then return false
  else return (← peek ts).kind = kind

/-- Steps over one token, but never over the end marker, and gives the token before the position. -/
def advance : Reader Token := do
  if ← atEnd ts then previous ts
  else
    modify fun s => { s with pos := s.pos + 1 }
    previous ts

/-- Steps over the token at the position if it is of one of the given kinds, tried one by one. -/
def accept : List TokenKind → Reader Bool
  | [] => return false
  | kind :: kinds => do
    if ← check ts kind then
      let _ ← advance ts
      return true
    else accept kinds

def report (blame : Complaint) : Reader Unit :=
  modify fun s => { s with complaints := s.complaints ++ [blame] }

def raiseHere (problem : Problem) : Reader α := do
  let t ← peek ts
  let blame := ⟨← position, t, problem⟩
  report blame
  throw (.raised blame)

def consume (kind : TokenKind) (problem : Problem) : Reader Token := do
  if ← check ts kind then advance ts
  else raiseHere ts problem

/-- The rules, as they are called by one another. -/
structure Rules where
  skip : Reader Unit
  assignment : Reader Expr
  level : Level → Reader Expr
  operand : Level → Reader Expr
  chain : Level → Expr → Reader Expr
  unary : Reader Expr
  primary : Reader Expr
  declaration : Reader (Option Stmt)
  statement : Reader Stmt
  block : Reader (List Stmt)
  program : Reader (List Stmt)

section

variable (r : Rules)

/-- Goes on to behind a semicolon or in front of a statement keyword. -/
def skip : Reader Unit := do
  if ← atEnd ts then return ()
  else if (← previous ts).kind = .semicolon then return ()
  else if (← peek ts).kind.startsStatement then return ()
  else
    let _ ← advance ts
    r.skip

def synchronize : Reader Unit := do
  let _ ← advance ts
  r.skip

def assignment : Reader Expr := do
  let left ← r.level .equality
  if ← accept ts [.equal] then
    let equals ← previous ts
    let pos ← position
    let value ← r.assignment
    match left with
    | .variable name => return .assign name value
    | _ =>
      report ⟨pos - 1, equals, .invalidTarget⟩
      return left
  else return left

def level (l : Level) : Reader Expr := do
  let first ← r.operand l
  r.chain l first

def operand (l : Level) : Reader Expr :=
  match l.tighter with
  | some tighter => r.level tighter
  | none => r.unary

def chain (l : Level) (left : Expr) : Reader Expr := do
  if ← accept ts l.operators then
    let operator ← previous ts
    let right ← r.operand l
    r.chain l (.binary left operator right)
  else return left

def unary : Reader Expr := do
  if ← accept ts [.bang, .minus] then
    let operator ← previous ts
    let right ← r.unary
    return .unary operator right
  else r.primary

def primary : Reader Expr := do
  if ← accept ts [.falseWord] then return .literal (.bool false)
  else if ← accept ts [.trueWord] then return .literal (.bool true)
  else if ← accept ts [.nilWord] then return .literal .nil
  else if ← accept ts [.number, .string] then
    let t ← previous ts
    return .literal t.literal
  else if ← accept ts [.identifier] then
    let name ← previous ts
    return .variable name
  else if ← accept ts [.leftParen] then
    let inner ← r.assignment
    let _ ← consume ts .rightParen .expectParenAfterExpression
    return .grouping inner
  else raiseHere ts .expectExpression

def varDeclaration : Reader Stmt := do
  let name ← consume ts .identifier .expectName
  if ← accept ts [.equal] then
    let value ← r.assignment
    let _ ← consume ts .semicolon .expectSemicolonAfterDeclaration
    return .var name (some value)
  else
    let _ ← consume ts .semicolon .expectSemicolonAfterDeclaration
    return .var name none

def printStatement : Reader Stmt := do
  let value ← r.assignment
  let _ ← consume ts .semicolon .expectSemicolonAfterValue
  return .print value

def expressionStatement : Reader Stmt := do
  let value ← r.assignment
  let _ ← consume ts .semicolon .expectSemicolonAfterExpression
  return .expression value

/-- Goes on at the next statement after a syntax error. -/
def recover : Except Stop Stmt → Reader (Option Stmt)
  | .ok s => return some s
  | .error (.raised _) => do
    synchronize ts r
    return none
  | .error .pastEnd => throw .pastEnd

/-- Runs the attempt down to its result and goes on from there. -/
def recovering (attempt : Reader Stmt) : Reader (Option Stmt) :=
  ExceptT.mk do
    let result ← attempt.run
    (recover ts r result).run

/-- A declaration, or nothing where one had to be dropped. -/
def declaration : Reader (Option Stmt) :=
  recovering ts r do
    if ← accept ts [.varWord] then varDeclaration ts r
    else r.statement

def statement : Reader Stmt := do
  if ← accept ts [.printWord] then printStatement ts r
  else if ← accept ts [.leftBrace] then
    let body ← r.block
    return .block body
  else expressionStatement ts r

def block : Reader (List Stmt) := do
  if (← check ts .rightBrace) || (← atEnd ts) then
    let _ ← consume ts .rightBrace .expectBraceAfterBlock
    return []
  else
    let first ← r.declaration
    let rest ← r.block
    return first.toList ++ rest

def program : Reader (List Stmt) := do
  if ← atEnd ts then return []
  else
    let first ← r.declaration
    let rest ← r.program
    return first.toList ++ rest

end

/-- No value, as for a call that is nested too deep. -/
def tooDeep : Reader α :=
  fun _ => none

/-- The rules with calls nested no deeper than the depth. -/
def rules : Nat → Rules
  | 0 => ⟨tooDeep, tooDeep, fun _ => tooDeep, fun _ => tooDeep, fun _ _ => tooDeep, tooDeep,
      tooDeep, tooDeep, tooDeep, tooDeep, tooDeep⟩
  | depth + 1 =>
    let r := rules depth
    ⟨skip ts r, assignment ts r, level r, operand r, chain ts r, unary ts r, primary ts r,
      declaration ts r, statement ts r, block ts r, program ts r⟩

end LoxLang.Grammar.Indexed
