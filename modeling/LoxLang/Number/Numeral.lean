import LoxLang.Number.Decimal
import LoxLang.Text.Blank
import LoxLang.Text.Digit

/-!
Doubles from texts: an optional sign, then digits of any script with an optional point and exponent,
or one of the words for infinity and for no number in any case. Blanks may stand around, and single
underscores between digits.
-/
namespace LoxLang.Number

/-- Takes out the underscores, each of which must stand between two digits. -/
def ungrouped? : List Char → Option (List Char)
  | [] => some []
  | a :: '_' :: b :: rest =>
    if Text.isAsciiDigit a && Text.isAsciiDigit b then (ungrouped? (b :: rest)).map (a :: ·)
    else none
  | c :: rest => if c = '_' then none else (ungrouped? rest).map (c :: ·)

/-- The exponent at the end of a numeral, which may be missing. -/
def exponentPart? : List Char → Option Int
  | [] => some 0
  | mark :: cs =>
    let negative := cs.head? == some '-'
    let digits := if negative || cs.head? == some '+' then cs.drop 1 else cs
    let n : Int := Text.ofDigits 0 digits
    if (mark = 'e' ∨ mark = 'E') ∧ digits ≠ [] ∧ digits.all Text.isAsciiDigit then
      some (if negative then -n else n)
    else none

/-- An unsigned numeral. -/
def decimal? (cs : List Char) : Option Decimal := do
  let integral := cs.takeWhile Text.isAsciiDigit
  let rest := cs.drop integral.length
  let fractional := if rest.head? == some '.' then (rest.drop 1).takeWhile Text.isAsciiDigit else []
  let rest := if rest.head? == some '.' then rest.drop (fractional.length + 1) else rest
  let exponent ← exponentPart? rest
  if integral.isEmpty && fractional.isEmpty then none
  else some ⟨Text.ofDigits 0 (integral ++ fractional), exponent - (fractional.length : Int)⟩

def unsigned? (cs : List Char) : Option Float :=
  match String.ofList (cs.map Char.toLower) with
  | "inf" | "infinity" => some (1 / 0)
  | "nan" => some (0 / 0)
  | _ => ((ungrouped? cs).bind decimal?).map (·.toFloat)

/-- The double that a text denotes. -/
def ofText? (text : String) : Option Float :=
  match (Text.trimBy Text.isPadding text.toList).map Text.toAsciiDigit with
  | '-' :: cs => (unsigned? cs).map (-·)
  | '+' :: cs => unsigned? cs
  | cs => unsigned? cs

end LoxLang.Number
