import LoxLang.Number.Decimal
import LoxLang.Number.Whole
import LoxLang.Value.Basic

/-!
Reading JSON texts.

Whole numbers of any size are integers, numbers with a fraction or an exponent are doubles, and
`NaN`, `Infinity` and `-Infinity` are accepted. Of two members with one key the later value counts,
in the place of the earlier.
-/
namespace LoxLang.Json

inductive ReadError where
  | malformed
  /-- A whole number with more digits than `Number.maxDigits`. -/
  | tooManyDigits (count : Nat)
deriving DecidableEq, Repr

def skipBlanks (cs : List Char) : List Char :=
  cs.dropWhile fun c => c == ' ' || c == '\t' || c == '\n' || c == '\r'

def hexValue? (c : Char) : Option Nat :=
  if '0' ≤ c ∧ c ≤ '9' then some (c.toNat - 48)
  else if 'a' ≤ c ∧ c ≤ 'f' then some (c.toNat - 87)
  else if 'A' ≤ c ∧ c ≤ 'F' then some (c.toNat - 55)
  else none

/-- The number of four hexadecimal digits. -/
def hexValues? (cs : List Char) : Option Nat :=
  cs.foldlM (fun n c => (hexValue? c).map (16 * n + ·)) 0

/-- The character that a backslash and a letter stand for. -/
def escape? : Char → Option Char
  | '"' => some '"'
  | '\\' => some '\\'
  | '/' => some '/'
  | 'b' => some '\x08'
  | 'f' => some '\x0c'
  | 'n' => some '\n'
  | 'r' => some '\r'
  | 't' => some '\t'
  | _ => none

/-- The code units of a string up to its closing quote, and the text after that. -/
def units : List Char → Option (List Nat × List Char)
  | [] => none
  | '"' :: rest => some ([], rest)
  | '\\' :: 'u' :: a :: b :: c :: d :: rest => do
    let n ← hexValues? [a, b, c, d]
    let (us, rest) ← units rest
    some (n :: us, rest)
  | '\\' :: c :: rest => do
    let e ← escape? c
    let (us, rest) ← units rest
    some (e.toNat :: us, rest)
  | c :: rest =>
    if c = '\\' ∨ c.toNat < 32 then none
    else do
      let (us, rest) ← units rest
      some (c.toNat :: us, rest)

def isHighHalf (n : Nat) : Bool := 0xD800 ≤ n && n < 0xDC00

def isLowHalf (n : Nat) : Bool := 0xDC00 ≤ n && n < 0xE000

/-- What a code unit is by itself: a character, unless it is a half. -/
def pointOf (n : Nat) : Point :=
  if h : 0xD800 ≤ n ∧ n < 0xE000 then .half ⟨n - 0xD800, by omega⟩ else .char (Char.ofNat n)

/-- Joins the two halves of each pair; a half without its other half stays as it is. -/
def joinHalves : List Nat → List Point
  | [] => []
  | high :: low :: us =>
    if isHighHalf high && isLowHalf low then
      .char (Char.ofNat (0x10000 + (high - 0xD800) * 0x400 + (low - 0xDC00))) :: joinHalves us
    else pointOf high :: joinHalves (low :: us)
  | [u] => [pointOf u]

/-- A string after its opening quote. -/
def readString (cs : List Char) : Except ReadError (Text × List Char) :=
  match units cs with
  | some (us, rest) => .ok (.ofPoints (joinHalves us), rest)
  | none => .error .malformed

/-- The digits of a fraction after its point, none if no digit follows. -/
def fraction : List Char → List Char × List Char
  | '.' :: cs =>
    match cs.takeWhile Text.isAsciiDigit with
    | [] => ([], '.' :: cs)
    | digits => (digits, cs.dropWhile Text.isAsciiDigit)
  | cs => ([], cs)

/-- The exponent after its mark, if it has digits. -/
def exponent? : List Char → Option (Int × List Char)
  | mark :: cs =>
    if mark = 'e' ∨ mark = 'E' then
      let negative := cs.head? == some '-'
      let unsigned := if negative || cs.head? == some '+' then cs.drop 1 else cs
      let digits := unsigned.takeWhile Text.isAsciiDigit
      let n : Int := Text.ofDigits 0 digits
      if digits.isEmpty then none
      else some (if negative then -n else n, unsigned.dropWhile Text.isAsciiDigit)
    else none
  | [] => none

/-- A number: a whole one has neither fraction nor exponent and no needless zeros in front. -/
def readNumber (cs : List Char) : Except ReadError (Value × List Char) :=
  let negative := cs.head? == some '-'
  let unsigned := if negative then cs.drop 1 else cs
  let integral :=
    if unsigned.head? == some '0' then ['0'] else unsigned.takeWhile Text.isAsciiDigit
  let (fractional, afterFraction) := fraction (unsigned.drop integral.length)
  if integral.isEmpty then .error .malformed
  else
    match fractional, exponent? afterFraction with
    | [], none =>
      let n : Int := Text.ofDigits 0 integral
      if Number.maxDigits < integral.length then .error (.tooManyDigits integral.length)
      else .ok (.integer (if negative then -n else n), unsigned.drop integral.length)
    | _, e =>
      let digits := Text.ofDigits 0 (integral ++ fractional)
      let shift := (e.map (·.1)).getD 0 - (fractional.length : Int)
      let x := (Number.Decimal.mk digits shift).toFloat
      .ok (.number (if negative then -x else x), (e.map (·.2)).getD afterFraction)

/-- The words that stand for a value. -/
def words : List (List Char × Value) :=
  [("null".toList, .nil), ("true".toList, .bool true), ("false".toList, .bool false),
   ("NaN".toList, .number (0 / 0)), ("Infinity".toList, .number (1 / 0)),
   ("-Infinity".toList, .number (-1 / 0))]

def readScalar (cs : List Char) : Except ReadError (Value × List Char) :=
  match words.find? fun (word, _) => word.isPrefixOf cs with
  | some (word, v) => .ok (v, cs.drop word.length)
  | none => readNumber cs

/-- Adds a member or gives the member of that key a new value. -/
def insertMember (key : Text) (v : Value) : List (Text × Value) → List (Text × Value)
  | [] => [(key, v)]
  | (k, u) :: rest => if k = key then (key, v) :: rest else (k, u) :: insertMember key v rest

/-- The members in the order of their first mention, each with its last value. -/
def lastMembers (members : List (Text × Value)) : List (Text × Value) :=
  members.foldl (fun seen (key, v) => insertMember key v seen) []

mutual

/-- A value at the front of a text, nested no deeper than the fuel. -/
def readValue : Nat → List Char → Except ReadError (Value × List Char)
  | 0, _ => .error .malformed
  | _ + 1, '"' :: rest => do
    let (s, rest) ← readString rest
    .ok (.string s, rest)
  | fuel + 1, '[' :: rest =>
    match skipBlanks rest with
    | ']' :: rest => .ok (.list [], rest)
    | rest => do
      let (items, rest) ← readItems fuel rest
      .ok (.list items, rest)
  | fuel + 1, '\x7b' :: rest =>
    match skipBlanks rest with
    | '\x7d' :: rest => .ok (.dict [], rest)
    | rest => do
      let (members, rest) ← readMembers fuel rest
      .ok (.dict (lastMembers members), rest)
  | _ + 1, cs => readScalar cs

/-- The items of a list up to its closing bracket. -/
def readItems : Nat → List Char → Except ReadError (List Value × List Char)
  | 0, _ => .error .malformed
  | fuel + 1, cs => do
    let (v, rest) ← readValue fuel cs
    match skipBlanks rest with
    | ',' :: rest => do
      let (vs, rest) ← readItems fuel (skipBlanks rest)
      .ok (v :: vs, rest)
    | ']' :: rest => .ok ([v], rest)
    | _ => .error .malformed

/-- The members of a dictionary up to its closing brace. -/
def readMembers : Nat → List Char → Except ReadError (List (Text × Value) × List Char)
  | fuel + 1, '"' :: cs => do
    let (key, rest) ← readString cs
    match skipBlanks rest with
    | ':' :: rest => do
      let (v, rest) ← readValue fuel (skipBlanks rest)
      match skipBlanks rest with
      | ',' :: rest => do
        let (ms, rest) ← readMembers fuel (skipBlanks rest)
        .ok ((key, v) :: ms, rest)
      | '\x7d' :: rest => .ok ([(key, v)], rest)
      | _ => .error .malformed
    | _ => .error .malformed
  | _, _ => .error .malformed

end

/-- The value that a whole text denotes. -/
def read (text : String) : Except ReadError Value := do
  let cs := text.toList
  let (v, rest) ← readValue (2 * cs.length + 2) (skipBlanks cs)
  if (skipBlanks rest).isEmpty then .ok v else .error .malformed

end LoxLang.Json
