import LoxLang.Number.Decimal
import LoxLang.Text.Quoted
import LoxLang.Value.Basic

/-! Writing JSON texts, on one line or indented by two spaces at each level. -/
namespace LoxLang.Json

/-- Tokens and nodes have no JSON text, and ragged texts none that a file can hold. -/
inductive WriteError where
  | notData (v : Value)
  | ragged (r : Ragged)

/-- What stands after an opening bracket, between two items and before the closing bracket. -/
structure Style where
  inside : Nat → String
  between : Nat → String
  outside : Nat → String

def compact : Style :=
  ⟨fun _ => "", fun _ => ", ", fun _ => ""⟩

def newline (depth : Nat) : String :=
  String.ofList ('\n' :: List.replicate (2 * depth) ' ')

def indented : Style :=
  ⟨fun depth => newline (depth + 1), fun depth => "," ++ newline (depth + 1), newline⟩

def escapedChar (c : Char) : List Char :=
  match c with
  | '"' => ['\\', '"']
  | '\\' => ['\\', '\\']
  | '\n' => ['\\', 'n']
  | '\r' => ['\\', 'r']
  | '\t' => ['\\', 't']
  | '\x08' => ['\\', 'b']
  | '\x0c' => ['\\', 'f']
  | c => if c.toNat < 32 then '\\' :: 'u' :: Text.hex 4 c.toNat else [c]

def writeChars (s : String) : String :=
  String.ofList ('"' :: s.toList.flatMap escapedChar ++ ['"'])

def writeString : Text → Except WriteError String
  | .whole s => .ok (writeChars s)
  | .ragged r => .error (.ragged r)

/-- Doubles are written as elsewhere, except for the words of the format. -/
def numberLayout : Number.Layout :=
  { Number.plain with infinity := "Infinity", notANumber := "NaN" }

/-- Items between brackets; an empty list has nothing between them. -/
def bracketed (style : Style) (depth : Nat) (opening closing : String) : List String → String
  | [] => opening ++ closing
  | items =>
    opening ++ style.inside depth ++ (style.between depth).intercalate items ++
      style.outside depth ++ closing

mutual

/-- A value at the given depth. -/
def write (style : Style) (depth : Nat) : Value → Except WriteError String
  | .nil => .ok "null"
  | .bool b => .ok (if b then "true" else "false")
  | .number x => .ok (numberLayout.text x)
  | .string s => writeString s
  | .integer n => .ok (toString n)
  | .noNumber _ => .ok numberLayout.notANumber
  | .list items => do
    .ok (bracketed style depth "[" "]" (← writeItems style (depth + 1) items))
  | .dict members => do
    .ok (bracketed style depth "\x7b" "\x7d" (← writeMembers style (depth + 1) members))
  | v => .error (.notData v)

def writeItems (style : Style) (depth : Nat) : List Value → Except WriteError (List String)
  | [] => .ok []
  | v :: vs => do .ok ((← write style depth v) :: (← writeItems style depth vs))

def writeMembers (style : Style) (depth : Nat) :
    List (Text × Value) → Except WriteError (List String)
  | [] => .ok []
  | (key, v) :: rest => do
    .ok (((← writeString key) ++ ": " ++ (← write style depth v)) :: (← writeMembers style depth rest))

end

end LoxLang.Json
