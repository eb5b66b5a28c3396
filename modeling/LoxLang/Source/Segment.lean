import LoxLang.Text.Blank
import LoxLang.Text.Digit
import LoxLang.Token.Kind

/-!
Source text cut into segments.

Each segment is the longest word, number, string, operator, comment or run of blanks at its place;
where none of these starts, it is a string without an end, or else one stray character.
-/
namespace LoxLang.Source

inductive SegmentKind where
  | word | number | string | operator (kind : TokenKind) | comment | blank | unterminated | stray
deriving DecidableEq, Repr

structure Segment where
  kind : SegmentKind
  text : List Char
deriving DecidableEq, Repr

/-- Letters are the ASCII letters and the underscore. -/
def startsWord (c : Char) : Bool :=
  ('A' ≤ c && c ≤ 'Z') || ('a' ≤ c && c ≤ 'z') || c == '_'

def continuesWord (c : Char) : Bool :=
  startsWord c || Text.isAsciiDigit c

/-- The operators of one character. -/
def singleOperator? : Char → Option TokenKind
  | '(' => some .leftParen
  | ')' => some .rightParen
  | '\x7b' => some .leftBrace
  | '\x7d' => some .rightBrace
  | ',' => some .comma
  | '.' => some .dot
  | '-' => some .minus
  | '+' => some .plus
  | ';' => some .semicolon
  | '/' => some .slash
  | '*' => some .star
  | '!' => some .bang
  | '=' => some .equal
  | '>' => some .greater
  | '<' => some .less
  | _ => none

/-- The operators that an equals sign completes, by their first characters. -/
def doubleOperator? : Char → Option TokenKind
  | '!' => some .bangEqual
  | '=' => some .equalEqual
  | '>' => some .greaterEqual
  | '<' => some .lessEqual
  | _ => none

/-- The length of a fraction at the front: a point and the digits after it, if there are any. -/
def fractionLength : List Char → Nat
  | '.' :: cs =>
    match (cs.takeWhile Text.isAsciiDigit).length with
    | 0 => 0
    | n + 1 => n + 2
  | _ => 0

/-- The kind of the segment that starts with `c`, and how many of the characters after `c` it takes. -/
def classify (c : Char) (cs : List Char) : SegmentKind × Nat :=
  if startsWord c then (.word, (cs.takeWhile continuesWord).length)
  else if Text.isAsciiDigit c then
    let n := (cs.takeWhile Text.isAsciiDigit).length
    (.number, n + fractionLength (cs.drop n))
  else if Text.isBlank c then (.blank, (cs.takeWhile Text.isBlank).length)
  else if c = '"' then
    let n := (cs.takeWhile (· != '"')).length
    if n < cs.length then (.string, n + 1) else (.unterminated, n)
  else if c = '/' && cs.head? == some '/' then (.comment, (cs.takeWhile (· != '\n')).length)
  else
    match doubleOperator? c, cs.head?, singleOperator? c with
    | some k, some '=', _ => (.operator k, 1)
    | _, _, some k => (.operator k, 0)
    | _, _, none => (.stray, 0)

/-- The segments of a text, in order. -/
def segments : List Char → List Segment
  | [] => []
  | c :: cs =>
    let (kind, n) := classify c cs
    ⟨kind, c :: cs.take n⟩ :: segments (cs.drop n)
termination_by cs => cs.length
decreasing_by
  simp only [List.length_drop, List.length_cons]
  omega

end LoxLang.Source
