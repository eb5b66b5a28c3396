import LoxLang.Json.Read
import LoxLang.Json.Write
import LoxLang.Tree.Object

/-! Tree files: programs kept as JSON texts. -/
namespace LoxLang.TreeFile

inductive Error where
  | unreadable (e : Json.ReadError)
  | unloadable (e : LoadError)

/-- The text of a program. Values without a form as data have no text. -/
def write? (style : Json.Style) (statements : List Value) : Option String := do
  let object ← (Value.programToObject statements).toOption
  (Json.write style 0 object).toOption

/-- The statements that a text holds. -/
def read (text : String) : Except Error (List Value) := do
  let object ← (Json.read text).mapError .unreadable
  (Value.programOfObject object).mapError .unloadable

end LoxLang.TreeFile
