import LoxLang.Run.Operator

/-!
Division of values of any class. Integers are divided exactly and rounded once; an integer beside a
double is rounded first. By zero the quotient is an infinity or no number, as for doubles.
-/
namespace LoxLang.Run

inductive DivisionError where
  | unsupported (a b : Value)
  | notReal (a : Value)
  | tooLarge
  | quotientTooLarge
  | breakdown (b : Breakdown)

def DivisionError.message : DivisionError → Text
  | .unsupported a b =>
    "unsupported operand type(s) for /: '" ++ a.className ++ "' and '" ++ b.className ++ "'"
  | .notReal a => "must be real number, not " ++ a.className
  | .tooLarge => "int too large to convert to float"
  | .quotientTooLarge => "integer division result too large for a float"
  | .breakdown b => b.message

/-- A number to divide with; the truth values count as one and zero. -/
inductive Quantity where
  | whole (n : Int)
  | double (x : Float)

namespace Quantity

def ofValue? : Value → Option Quantity
  | .bool b => some (.whole (if b then 1 else 0))
  | .integer n => some (.whole n)
  | .number x => some (.double x)
  | _ => none

def isZero : Quantity → Bool
  | .whole n => n = 0
  | .double x => Number.magnitude x = 0

def toFloat : Quantity → Except DivisionError Float
  | .whole n =>
    match Number.ofInt? n with
    | some x => .ok x
    | none => .error .tooLarge
  | .double x => .ok x

end Quantity

/-- The double nearest to a quotient of integers; the divisor is not zero. -/
def divideWhole (m n : Int) : Except DivisionError Float :=
  let q := Number.nearestMagnitude m.natAbs n.natAbs
  if q = Number.infinityMagnitude then .error .quotientTooLarge
  else
    let x := Number.ofMagnitude q
    .ok (if (m < 0) != (n < 0) then -x else x)

def divideValues (a b : Value) : Except DivisionError Float :=
  match Quantity.ofValue? a, Quantity.ofValue? b with
  | some x, some y =>
    match x, y, y.isZero with
    | .whole m, .whole n, false => divideWhole m n
    | _, _, _ => do (divide (← x.toFloat) (← y.toFloat)).mapError .breakdown
  | none, some y => .error (if y.isZero then .notReal a else .unsupported a b)
  | _, none => .error (.unsupported a b)

end LoxLang.Run
