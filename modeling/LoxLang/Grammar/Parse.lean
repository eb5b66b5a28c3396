import LoxLang.Diagnostic

/-!
Parsers: functions from a place in a list of tokens to a result, the place reached and the problems
reported on the way. A parser stops early when it raises a syntax error, or when it looks for a
token past the end of the list, which happens only in lists without an end marker.
-/
namespace LoxLang.Grammar

/-- A place in a list of tokens: its position and the tokens from there on. -/
structure Cursor where
  pos : Nat
  ahead : List Token

inductive Problem where
  | expectName
  | expectSemicolonAfterDeclaration
  | expectSemicolonAfterValue
  | expectSemicolonAfterExpression
  | expectBraceAfterBlock
  | expectParenAfterExpression
  | expectExpression
  | invalidTarget
  /-- A problem in the words of whoever looked for the token. -/
  | custom (message : String)
deriving DecidableEq, Repr

def Problem.message : Problem → String
  | .expectName => "Expect variable name."
  | .expectSemicolonAfterDeclaration => "Expect ';' after variable declaration."
  | .expectSemicolonAfterValue => "Expect ';' after value."
  | .expectSemicolonAfterExpression => "Expect ';' after expression."
  | .expectBraceAfterBlock => "Expect '\x7d' after block."
  | .expectParenAfterExpression => "Expect ')' after expression."
  | .expectExpression => "Expect expression."
  | .invalidTarget => "Invalid assignment target."
  | .custom message => message

/-- A problem, the token blamed for it and the position of that token. -/
structure Complaint where
  pos : Nat
  token : Token
  problem : Problem

def Complaint.diagnostic (c : Complaint) : Diagnostic :=
  .atToken c.token c.problem.message

/-- Why a parser stopped without a result. -/
inductive Stop where
  | raised (blame : Complaint)
  | pastEnd

structure Outcome (α : Type) where
  result : Except Stop α
  cursor : Cursor
  complaints : List Complaint

def Parse (α : Type) : Type :=
  Cursor → Outcome α

namespace Parse

variable {α β : Type}

def pure (a : α) : Parse α :=
  fun c => ⟨.ok a, c, []⟩

def bind (p : Parse α) (f : α → Parse β) : Parse β :=
  fun c =>
    let o := p c
    match o.result with
    | .ok a =>
      let o' := f a o.cursor
      ⟨o'.result, o'.cursor, o.complaints ++ o'.complaints⟩
    | .error stop => ⟨.error stop, o.cursor, o.complaints⟩

instance : Monad Parse where
  pure := Parse.pure
  bind := Parse.bind

/-- Stops for want of a token. -/
def pastEnd : Parse α :=
  fun c => ⟨.error .pastEnd, c, []⟩

/-- Reports a problem and goes on. -/
def complain (blame : Complaint) : Parse Unit :=
  fun c => ⟨.ok (), c, [blame]⟩

/-- Reports a problem and stops. -/
def raise (blame : Complaint) : Parse α :=
  fun c => ⟨.error (.raised blame), c, [blame]⟩

/-- The token at the cursor. -/
def peek : Parse Token :=
  fun c =>
    match c.ahead with
    | t :: _ => ⟨.ok t, c, []⟩
    | [] => ⟨.error .pastEnd, c, []⟩

def position : Parse Nat :=
  fun c => ⟨.ok c.pos, c, []⟩

def atEnd : Parse Bool := do
  return (← peek).kind = .eof

/-- Whether the token at the cursor is of the given kind; nothing counts as the end marker. -/
def check (kind : TokenKind) : Parse Bool := do
  let t ← peek
  return t.kind ≠ .eof ∧ t.kind = kind

/-- Steps over the token at the cursor if it is of one of the given kinds. -/
def accept (kinds : List TokenKind) : Parse (Option Token) :=
  fun c =>
    match c.ahead with
    | t :: rest =>
      if t.kind ≠ .eof ∧ t.kind ∈ kinds then ⟨.ok (some t), ⟨c.pos + 1, rest⟩, []⟩
      else ⟨.ok none, c, []⟩
    | [] => ⟨.error .pastEnd, c, []⟩

/-- Blames the token at the cursor. -/
def raiseHere (problem : Problem) : Parse α := do
  let t ← peek
  raise ⟨← position, t, problem⟩

/-- Steps over a token of the given kind, or else raises the problem. -/
def consume (kind : TokenKind) (problem : Problem) : Parse Token := do
  match ← accept [kind] with
  | some t => return t
  | none => raiseHere problem

/-- Goes on, after the token `last`, to behind a semicolon or in front of a statement keyword. -/
def skipTo (last : Token) (pos : Nat) : List Token → Outcome Unit
  | [] => ⟨.error .pastEnd, ⟨pos, []⟩, []⟩
  | t :: rest =>
    if t.kind = .eof ∨ last.kind = .semicolon ∨ t.kind.startsStatement then
      ⟨.ok (), ⟨pos, t :: rest⟩, []⟩
    else skipTo t (pos + 1) rest

/-- Skips the token at the cursor and what follows it up to the next statement. -/
def synchronize : Parse Unit :=
  fun c =>
    match c.ahead with
    | [] => ⟨.error .pastEnd, c, []⟩
    | t :: rest => if t.kind = .eof then ⟨.ok (), c, []⟩ else skipTo t (c.pos + 1) rest

/-- Gives up a construct with a syntax error in it and goes on at the next statement. -/
def recovering (p : Parse α) : Parse (Option α) :=
  fun c =>
    let o := p c
    match o.result with
    | .ok a => ⟨.ok (some a), o.cursor, o.complaints⟩
    | .error (.raised _) =>
      let o' := synchronize o.cursor
      ⟨o'.result.map fun _ => none, o'.cursor, o.complaints ++ o'.complaints⟩
    | .error .pastEnd => ⟨.error .pastEnd, o.cursor, o.complaints⟩

/--
Runs a parser with fuel for the tokens ahead. No rule nests more than twelve calls before it takes a
token, so the fuel never runs out.
-/
def fueled (p : Nat → Parse α) : Parse α :=
  fun c => p (12 * c.ahead.length + 12) c

end Parse

end LoxLang.Grammar
