import LoxLang.Number.Double
import LoxLang.Text.Blank
import LoxLang.Text.Digit
import LoxLang.Text.Quoted

/-!
Whole numbers from texts and doubles.

A text is an optional sign and decimal digits of any script, with blanks around and single
underscores between digits. Digits beyond the limit are refused before what follows them is looked
at. A double loses its fraction.
-/
namespace LoxLang.Number

inductive WholeError where
  | notANumeral (text : Text)
  /-- A numeral with more digits than `maxDigits`. -/
  | tooManyDigits (count : Nat)
  | notANumber
  | infinite
deriving DecidableEq, Repr

/-- The most digits that a whole number may be written with. -/
def maxDigits : Nat := 4300

def digitLimitMessage (count : Nat) : String :=
  "Exceeds the limit (" ++ toString maxDigits ++ " digits) for integer string conversion: value has " ++
    toString count ++ " digits; use sys.set_int_max_str_digits() to increase the limit"

/-- A numeral is quoted in the message up to 200 characters. -/
def WholeError.message : WholeError → String
  | .notANumeral text =>
    "invalid literal for int() with base 10: " ++ String.ofList ((Text.quoted text).toList.take 200)
  | .tooManyDigits count => digitLimitMessage count
  | .notANumber => "cannot convert float NaN to integer"
  | .infinite => "cannot convert float infinity to integer"

def isDigitOrUnderscore (c : Char) : Bool :=
  c == '_' || (Text.digitValue? c).isSome

/-- The digits of a numeral; each underscore stands between two of them. -/
def groupedDigits? : List Char → Option (List Nat)
  | [] => none
  | [c] => (Text.digitValue? c).map ([·])
  | c :: '_' :: rest => do some ((← Text.digitValue? c) :: (← groupedDigits? rest))
  | c :: rest => do some ((← Text.digitValue? c) :: (← groupedDigits? rest))

/-- The whole number that a text denotes. -/
def wholeOfText (text : Text) : Except WholeError Int :=
  let cs := text.chars.dropWhile Text.isPadding
  let negative := cs.head? == some '-'
  let unsigned := if negative || cs.head? == some '+' then cs.drop 1 else cs
  match groupedDigits? (unsigned.takeWhile isDigitOrUnderscore) with
  | none => .error (.notANumeral text)
  | some digits =>
    if maxDigits < digits.length then .error (.tooManyDigits digits.length)
    else if (unsigned.dropWhile isDigitOrUnderscore).all Text.isPadding then
      let n : Nat := digits.foldl (fun n d => 10 * n + d) 0
      .ok (if negative then -(n : Int) else n)
    else .error (.notANumeral text)

/-- The whole part of a double. -/
def wholeOfFloat (x : Float) : Except WholeError Int :=
  let m := magnitude x
  if m < infinityMagnitude then .ok (truncate x)
  else if m = infinityMagnitude then .error .infinite
  else .error .notANumber

end LoxLang.Number
