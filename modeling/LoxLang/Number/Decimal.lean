import LoxLang.Number.Double

/-!
Decimal numerals: the double that a decimal denotes, and the shortest decimal that denotes a double.

`shortest` looks at the two decimals of `n` digits next to the double for `n = 1, 2, …` and keeps
the first that reads back.
-/
namespace LoxLang.Number

/-- The number of decimal digits of a natural; zero has one. -/
def digitCount (n : Nat) : Nat :=
  if n < 10 then 1 else digitCount (n / 10) + 1

/-- The number `digits * 10 ^ exponent`. -/
structure Decimal where
  digits : Nat
  exponent : Int
deriving DecidableEq, Repr

namespace Decimal

/-- A decimal as a quotient of naturals. -/
def quotient (d : Decimal) : Nat × Nat :=
  if 0 ≤ d.exponent then (d.digits * Nat.pow 10 d.exponent.toNat, 1)
  else (d.digits, Nat.pow 10 (-d.exponent).toNat)

/--
The magnitude of the nearest double. Every decimal from `10 ^ 310` on is nearest to infinity and
every one below `10 ^ -330` to zero, so their powers of ten are not computed.
-/
def magnitude (d : Decimal) : Nat :=
  let top := (digitCount d.digits : Int) + d.exponent
  if d.digits = 0 ∨ top < -330 then 0
  else if 311 < top then infinityMagnitude
  else nearestMagnitude d.quotient.1 d.quotient.2

/-- The double nearest to a decimal. -/
def toFloat (d : Decimal) : Float :=
  ofMagnitude d.magnitude

/-- The power of ten just above the positive quotient `num / den`. -/
def topExponent (num den : Nat) : Int :=
  if den ≤ num then digitCount (num / den) else 1 - (digitCount ((den - 1) / num) : Int)

/-- The two decimals with last place `10 ^ e` on either side of `num / den`, the nearer first. -/
def neighbours (num den : Nat) (e : Int) : List Decimal :=
  let (n, d) := scaled 10 num den e
  let below := n / d
  if roundDiv n d = below then [⟨below, e⟩, ⟨below + 1, e⟩] else [⟨below + 1, e⟩, ⟨below, e⟩]

/-- All digits of a finite magnitude. -/
def exact (m : Nat) : Decimal :=
  let s := significand m
  if 0 ≤ s.2 then ⟨s.1 * Nat.pow 2 s.2.toNat, 0⟩ else ⟨s.1 * Nat.pow 5 (-s.2).toNat, s.2⟩

/-- Moves zeros at the end of the digits into the exponent, at most `fuel` of them. -/
def dropZeros : Nat → Decimal → Decimal
  | 0, d => d
  | fuel + 1, d =>
    if d.digits % 10 = 0 then dropZeros fuel ⟨d.digits / 10, d.exponent + 1⟩ else d

/-- The decimal of the fewest digits that reads back as the magnitude, the nearest of those. -/
def shortest (m : Nat) : Decimal :=
  if m = 0 then ⟨0, 0⟩
  else
    let q := Number.quotient m
    let top := topExponent q.1 q.2
    let found := (List.range 17).findSome? fun (n : Nat) =>
      (neighbours q.1 q.2 (top - (n + 1))).find? fun d => d.magnitude = m
    dropZeros 400 (found.getD (exact m))

end Decimal

/-- Where positional notation ends and how exponents are written. -/
structure Layout where
  /-- The least leading exponent written positionally. -/
  least : Int
  /-- The first leading exponent written in exponent form. -/
  limit : Int
  /-- The fewest digits of an exponent. -/
  width : Nat
  infinity : String
  notANumber : String

/-- Fills with zeros on the left. -/
def padded (width n : Nat) : String :=
  let s := toString n
  String.ofList (List.replicate (width - s.length) '0') ++ s

/-- A decimal in positional or exponent form; a positional whole number ends in `.0`. -/
def Layout.decimal (layout : Layout) (d : Decimal) : String :=
  let digits := (toString d.digits).toList
  let zeros (n : Int) := List.replicate n.toNat '0'
  let leading := d.exponent + digits.length - 1
  if layout.least ≤ leading ∧ leading < layout.limit then
    if 0 ≤ d.exponent then String.ofList (digits ++ zeros d.exponent ++ ['.', '0'])
    else if 0 ≤ leading then
      String.ofList (digits.take (leading + 1).toNat ++ '.' :: digits.drop (leading + 1).toNat)
    else String.ofList ('0' :: '.' :: zeros (-leading - 1) ++ digits)
  else
    let fraction := if digits.length = 1 then [] else '.' :: digits.drop 1
    let sign := if leading < 0 then "e-" else "e+"
    String.ofList (digits.take 1 ++ fraction) ++ sign ++ padded layout.width leading.natAbs

/-- The text of a double. -/
def Layout.text (layout : Layout) (x : Float) : String :=
  let m := magnitude x
  if infinityMagnitude < m then layout.notANumber
  else
    let body := if m = infinityMagnitude then layout.infinity else layout.decimal (Decimal.shortest m)
    if isNegative x then "-" ++ body else body

/-- Positional from `0.0001` up to `10 ^ 16`, then a signed exponent of at least two digits. -/
def plain : Layout := ⟨-4, 16, 2, "inf", "nan"⟩

/-- The fewest digits that read back. -/
def text (x : Float) : String :=
  plain.text x

end LoxLang.Number
