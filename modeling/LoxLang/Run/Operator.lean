import LoxLang.Run.Fault
import LoxLang.Value.Equality

/-! The operators on values. -/
namespace LoxLang.Run

/-- The quotient of two doubles. There is none by a zero. -/
def quotient (x y : Float) : Except Breakdown Float :=
  if y == 0 then .error .zeroDivision else .ok (x / y)

/-- Division of the language. It takes a quotient only by what is no zero. By a zero it gives no
number for a zero or no number, and else an infinity with both signs in its sign. -/
def divide (x y : Float) : Except Breakdown Float :=
  if y != 0 then quotient x y
  else if x == 0 || x.isNaN then .ok (0 / 0)
  else .ok (Number.copySign (1 / 0) x * Number.copySign 1 y)

def asToken (v : Value) (needed : TokenPart) : Except Fault LooseToken :=
  match v.token? with
  | some t => .ok t
  | none => .error (.breakdown (.misfit (.notAToken v needed)))

def applyUnary (operator right : Value) : Except Fault Value := do
  let t ← asToken operator .kind
  match t.kind, right with
  | .bang, v => .ok (.bool !v.truthy)
  | .minus, .number x => .ok (.number (-x))
  | .minus, _ => .error (.runtime (.mismatch t .number))
  | _, _ => .error (.breakdown (.misfit (.notUnary t)))

/-- The operators on two numbers; a comparison with a value that is no number is false. -/
def applyNumbers (t : LooseToken) (x y : Float) : Except Fault Value :=
  match t.kind with
  | .greater => .ok (.bool (y < x))
  | .greaterEqual => .ok (.bool (y ≤ x))
  | .less => .ok (.bool (x < y))
  | .lessEqual => .ok (.bool (x ≤ y))
  | .minus => .ok (.number (x - y))
  | .star => .ok (.number (x * y))
  | .slash => ((divide x y).map Value.number).mapError .breakdown
  | _ => .error (.breakdown (.misfit (.notBinary t)))

def applyBinary (operator left right : Value) : Except Fault Value := do
  let t ← asToken operator .kind
  match t.kind, left, right with
  | .equalEqual, a, b => .ok (.bool (a.equal b))
  | .bangEqual, a, b => .ok (.bool !(a.equal b))
  | .plus, .number x, .number y => .ok (.number (x + y))
  | .plus, .string a, .string b => .ok (.string (a ++ b))
  | .plus, _, _ => .error (.runtime (.mismatch t .numbersOrStrings))
  | _, .number x, .number y => applyNumbers t x y
  | _, _, _ => .error (.runtime (.mismatch t .numbers))

end LoxLang.Run
