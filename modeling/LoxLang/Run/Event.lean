import LoxLang.Value.Text

/-! What happens in a run, as it is traced. Each event has a level from which on it is shown. -/
namespace LoxLang.Run

inductive Event where
  | note (message : Text)
  | started (statements : Nat)
  | failed (line : Int) (message : Text)
  | declared (name value : Value)
  | assigned (name value : Value)
  | printed (value : Value)
  | entered (statements : Nat)
  | left

namespace Event

def level : Event → Int
  | .note _ | .started _ | .failed .. => 1
  | .declared .. | .assigned .. => 2
  | .printed _ | .entered _ | .left => 3

def text : Event → Text
  | .note message => message
  | .started n => "run " ++ toString n ++ " statement(s)"
  | .failed line message => "runtime error at line " ++ toString line ++ ": " ++ message
  | .declared name value =>
    "declare " ++ name.text ++ ": " ++ value.typeName ++ " = " ++ value.printed
  | .assigned name value => "assign " ++ name.text ++ " = " ++ value.printed
  | .printed value => "print " ++ value.printed
  | .entered n => "enter block (" ++ toString n ++ " statement(s))"
  | .left => "exit block"

/-- The line that an event prints. -/
def output : Event → Text
  | .printed value => value.printed ++ "\n"
  | _ => ""

end Event

/-- All that events print. -/
def written (events : Array Event) : Text :=
  Text.join (events.toList.map Event.output)

end LoxLang.Run
