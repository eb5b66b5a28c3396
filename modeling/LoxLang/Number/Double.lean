/-!
Doubles as exact multiples of powers of two, and the double nearest to a quotient of naturals.

The magnitude of a double is the natural number in its lower 63 bits. Consecutive magnitudes are
consecutive doubles, so a significand that rounds up to the next power of two carries into the
exponent by itself.
-/
namespace LoxLang.Number

/-- The quotient to the nearest natural, a half to the even neighbour. -/
def roundDiv (num den : Nat) : Nat :=
  let q := num / den
  let r := num % den
  if 2 * r < den then q
  else if den < 2 * r then q + 1
  else q + q % 2

/-- The leading bit of a significand, which is not stored. -/
def leadingBit : Nat := 0x10000000000000

/-- The bit above all magnitudes. -/
def signBit : Nat := 0x8000000000000000

/-- The magnitude of the infinities; every larger magnitude is not a number. -/
def infinityMagnitude : Nat := 0x7FF0000000000000

/-- The quotient `num / den` over `base ^ e`, with both parts natural. -/
def scaled (base num den : Nat) (e : Int) : Nat × Nat :=
  if 0 ≤ e then (num, den * Nat.pow base e.toNat) else (num * Nat.pow base (-e).toNat, den)

/-- The exponent of the unit in the last place of the double nearest to `num / den`. -/
def unitExponent (num den : Nat) : Int :=
  let guess : Int := (num.log2 : Int) - den.log2 - 52
  let q := scaled 2 num den guess
  max (if q.1 < q.2 * leadingBit then guess - 1 else guess) (-1074)

/-- The magnitude of the double nearest to `num / den`, a half to the even significand. -/
def nearestMagnitude (num den : Nat) : Nat :=
  if num = 0 then 0
  else
    let e := unitExponent num den
    let q := scaled 2 num den e
    min ((e + 1074).toNat * leadingBit + roundDiv q.1 q.2) infinityMagnitude

/-- The non-negative double of a magnitude. -/
def ofMagnitude (m : Nat) : Float :=
  Float.ofBits m.toUInt64

/-- The lower 63 bits of a double. -/
def magnitude (x : Float) : Nat :=
  x.toBits.toNat % signBit

/-- Whether the sign bit is set, as it is for the negative zero. -/
def isNegative (x : Float) : Bool :=
  signBit ≤ x.toBits.toNat

/-- The magnitude of one double with the sign of another. -/
def copySign (x y : Float) : Float :=
  if isNegative y then -ofMagnitude (magnitude x) else ofMagnitude (magnitude x)

/-- The significand and exponent of a finite magnitude: its double is `significand * 2 ^ exponent`. -/
def significand (m : Nat) : Nat × Int :=
  if m / leadingBit = 0 then (m, -1074)
  else (m % leadingBit + leadingBit, (m / leadingBit : Nat) - 1075)

/-- A finite magnitude as a quotient of naturals. -/
def quotient (m : Nat) : Nat × Nat :=
  let s := significand m
  if 0 ≤ s.2 then (s.1 * Nat.pow 2 s.2.toNat, 1) else (s.1, Nat.pow 2 (-s.2).toNat)

/-- The integer nearest to zero from a finite double. -/
def truncate (x : Float) : Int :=
  let (n, d) := quotient (magnitude x)
  if isNegative x then -((n / d : Nat) : Int) else (n / d : Nat)

/-- The integer that a double equals, if there is one. -/
def whole? (x : Float) : Option Int :=
  let m := magnitude x
  let (n, d) := quotient m
  if m < infinityMagnitude ∧ n % d = 0 then some (truncate x) else none

/-- The double nearest to an integer, unless it is beyond the largest finite one. -/
def ofInt? (n : Int) : Option Float :=
  let m := nearestMagnitude n.natAbs 1
  if m = infinityMagnitude then none
  else some (if n < 0 then -ofMagnitude m else ofMagnitude m)

end LoxLang.Number
