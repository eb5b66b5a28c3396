import LoxLang.Grammar.Statement

/-! Parsing by hand: a list of tokens with a position that single steps move along. -/
namespace LoxLang.Grammar

structure Stepper where
  tokens : List Token
  pos : Nat := 0

namespace Stepper

variable {α : Type}

def cursor (s : Stepper) : Cursor :=
  ⟨s.pos, s.tokens.drop s.pos⟩

/-- What a step yields: its result, the stepper after it and the problems it reported. -/
structure Step (α : Type) where
  result : Except Stop α
  next : Stepper
  complaints : List Complaint

/-- Takes a parser as one step. -/
def step (s : Stepper) (p : Parse α) : Step α :=
  let o := p s.cursor
  ⟨o.result, { s with pos := o.cursor.pos }, o.complaints⟩

/-- The token before the position; before the first one stands the last one. -/
def previous (s : Stepper) : Except Stop Token :=
  let found := if s.pos = 0 then s.tokens.getLast? else s.tokens[s.pos - 1]?
  match found with
  | some t => .ok t
  | none => .error .pastEnd

/-- Steps over one token, but never over the end marker, and gives the token before the position. -/
def advance (s : Stepper) : Step Token :=
  match s.cursor.ahead with
  | [] => ⟨.error .pastEnd, s, []⟩
  | t :: _ =>
    let next := if t.kind = .eof then s else { s with pos := s.pos + 1 }
    ⟨next.previous, next, []⟩

/-- Steps over a token of one of the given kinds and tells whether there was one. -/
def acceptAny (s : Stepper) (kinds : List TokenKind) : Step Bool :=
  if kinds.isEmpty then ⟨.ok false, s, []⟩
  else s.step do return (← Parse.accept kinds).isSome

/-- Reports a problem with the token at the position. -/
def blame (s : Stepper) (message : String) : Step Complaint :=
  s.step do
    let t ← Parse.peek
    let complaint := ⟨← Parse.position, t, .custom message⟩
    Parse.complain complaint
    return complaint

end Stepper

end LoxLang.Grammar
