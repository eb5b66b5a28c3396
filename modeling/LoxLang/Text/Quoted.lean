import LoxLang.Text.Basic
import LoxLang.Text.Printable

/-!
Quoted text. A text stands between apostrophes, or between double quotes when it holds an apostrophe
and no double quote; the quote, the backslash, every character without a visible form and every
half are escaped.
-/
namespace LoxLang.Text

/-- A natural in lower-case hexadecimal, filled with zeros to the width. -/
def hex (width n : Nat) : List Char :=
  let digits := Nat.toDigits 16 n
  List.replicate (width - digits.length) '0' ++ digits

/-- The quote that needs the fewer escapes, an apostrophe if both need some. -/
def quoteFor (ps : List Point) : Char :=
  if ps.contains (.char '\x27') && !ps.contains (.char '"') then '"' else '\x27'

/-- One character between quotes. -/
def quotedChar (quote c : Char) : List Char :=
  if c = quote ∨ c = '\\' then ['\\', c]
  else if c = '\t' then ['\\', 't']
  else if c = '\n' then ['\\', 'n']
  else if c = '\r' then ['\\', 'r']
  else if isPrintable c then [c]
  else if c.toNat < 0x100 then '\\' :: 'x' :: hex 2 c.toNat
  else if c.toNat < 0x10000 then '\\' :: 'u' :: hex 4 c.toNat
  else '\\' :: 'U' :: hex 8 c.toNat

/-- One code point between quotes. -/
def quotedPoint (quote : Char) : Point → List Char
  | .char c => quotedChar quote c
  | .half h => '\\' :: 'u' :: hex 4 h.code

/-- A text between quotes. -/
def quoted (t : Text) : String :=
  let quote := quoteFor t.points
  String.ofList (quote :: t.points.flatMap (quotedPoint quote) ++ [quote])

end LoxLang.Text
