import LoxLang.Grammar.Expression

/-!
The grammar of programs.

    program     -> declaration*
    declaration -> "var" IDENTIFIER ( "=" expression )? ";" | statement
    statement   -> "print" expression ";" | "{" declaration* "}" | expression ";"

A declaration with a syntax error in it is dropped, and parsing goes on at the next statement.
-/
namespace LoxLang.Grammar

open Parse

/-- A declaration after the word `var`. -/
def varDeclaration : Parse Stmt := do
  let name ← consume .identifier .expectName
  match ← accept [.equal] with
  | some _ =>
    let value ← expression
    let _ ← consume .semicolon .expectSemicolonAfterDeclaration
    return .var name (some value)
  | none =>
    let _ ← consume .semicolon .expectSemicolonAfterDeclaration
    return .var name none

/-- A statement after the word `print`. -/
def printStatement : Parse Stmt := do
  let value ← expression
  let _ ← consume .semicolon .expectSemicolonAfterValue
  return .print value

def expressionStatement : Parse Stmt := do
  let value ← expression
  let _ ← consume .semicolon .expectSemicolonAfterExpression
  return .expression value

mutual

/-- A declaration, or nothing where one had to be dropped. -/
def declarationFuel : Nat → Parse (Option Stmt)
  | 0 => pastEnd
  | fuel + 1 => recovering do
    match ← accept [.varWord] with
    | some _ => varDeclaration
    | none => statementFuel fuel

def statementFuel : Nat → Parse Stmt
  | 0 => pastEnd
  | fuel + 1 => do
    match ← accept [.printWord, .leftBrace] with
    | none => expressionStatement
    | some t =>
      if t.kind = .printWord then printStatement
      else return .block (← blockFuel fuel)

/-- The declarations of a block after its opening brace, up to and with the closing one. -/
def blockFuel : Nat → Parse (List Stmt)
  | 0 => pastEnd
  | fuel + 1 => do
    let t ← peek
    if t.kind = .rightBrace ∨ t.kind = .eof then
      let _ ← consume .rightBrace .expectBraceAfterBlock
      return []
    else
      let first ← declarationFuel fuel
      let rest ← blockFuel fuel
      return first.toList ++ rest

end

/-- The declarations up to the end marker. -/
def programFuel : Nat → Parse (List Stmt)
  | 0 => pastEnd
  | fuel + 1 => do
    if ← atEnd then return []
    else
      let first ← declarationFuel fuel
      let rest ← programFuel fuel
      return first.toList ++ rest

def declaration : Parse (Option Stmt) := fueled declarationFuel

def statement : Parse Stmt := fueled statementFuel

def block : Parse (List Stmt) := fueled blockFuel

def program : Parse (List Stmt) := fueled programFuel

/-- A whole list of tokens as a program. -/
def parse (tokens : List Token) : Outcome (List Stmt) :=
  program ⟨0, tokens⟩

end LoxLang.Grammar
