import LoxLang.Number.Double
import LoxLang.Value.Text

/-!
Two notions of sameness. `same` compares data part by part and takes numbers of all classes by their
amounts; it decides which names are one. `equal` is the equality of the language: it keeps the kinds
apart, and two numbers are equal when they are the same double.
-/
namespace LoxLang

/-- An amount: an integer, or a double that is none. -/
inductive Amount where
  | whole (n : Int)
  | other (magnitude : Nat) (negative : Bool)
deriving DecidableEq

namespace Value

/-- The amount of a number of any class; the truth values count as one and zero. -/
def amount? : Value → Option Amount
  | .bool b => some (.whole (if b then 1 else 0))
  | .integer n => some (.whole n)
  | .number x =>
    match Number.whole? x with
    | some n => some (.whole n)
    | none => some (.other (Number.magnitude x) (Number.isNegative x))
  | _ => none

/-- Whether two values are numbers of the same amount. -/
def sameAmount (a b : Value) : Bool :=
  match a.amount?, b.amount? with
  | some m, some n => m = n
  | _, _ => false

mutual

/-- Sameness part by part; the order of the members of a dictionary does not count. -/
def same : Value → Value → Bool
  | .nil, .nil => true
  | .string a, .string b => a = b
  | .noNumber m, .noNumber n => m = n
  | .list xs, .list ys => sameAll xs ys
  | .dict xs, .dict ys => xs.length = ys.length && sameMembers xs ys
  | .token kind lexeme literal line, .token kind' lexeme' literal' line' =>
    kind = kind' && lexeme.same lexeme' && literal.same literal' && line = line'
  | .node (.literal v), .node (.literal v') => v.same v'
  | .node (.grouping e), .node (.grouping e') => e.same e'
  | .node (.unary o r), .node (.unary o' r') => o.same o' && r.same r'
  | .node (.binary l o r), .node (.binary l' o' r') => l.same l' && o.same o' && r.same r'
  | .node (.variable n), .node (.variable n') => n.same n'
  | .node (.assign n v), .node (.assign n' v') => n.same n' && v.same v'
  | .node (.expression e), .node (.expression e') => e.same e'
  | .node (.print e), .node (.print e') => e.same e'
  | .node (.var n i), .node (.var n' i') => n.same n' && i.same i'
  | .node (.block ss), .node (.block ss') => sameAll ss ss'
  | .bool a, v => sameAmount (.bool a) v
  | .integer n, v => sameAmount (.integer n) v
  | .number x, v => sameAmount (.number x) v
  | _, _ => false

def sameAll : List Value → List Value → Bool
  | [], [] => true
  | x :: xs, y :: ys => x.same y && sameAll xs ys
  | _, _ => false

def sameMembers : List (Text × Value) → List (Text × Value) → Bool
  | [], _ => true
  | (key, x) :: rest, ys =>
    (match ys.lookup key with
      | some y => x.same y
      | none => false) && sameMembers rest ys

end

/-- The equality of the language. -/
def equal : Value → Value → Bool
  | .number x, .number y => x.toBits = y.toBits
  | .bool a, .bool b => a = b
  | .integer m, .integer n => m = n
  | .bool _, _ | .integer _, _ | .number _, _ => false
  | a, b => a.same b

def isNumber : Value → Bool
  | .number _ => true
  | _ => false

/-- Nil and false count as false and all else as true. -/
def truthy : Value → Bool
  | .nil => false
  | .bool b => b
  | _ => true

end Value

end LoxLang
