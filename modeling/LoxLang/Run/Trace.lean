import LoxLang.Run.Event

/-!
Traces.

A trace is a file that is written while a run goes on, with a line for each event that is due at the
level of the trace. The file is in UTF-8, so the line of an event with a ragged text cannot be
written.
-/
namespace LoxLang.Run

/-- Below level one there is no file, and a closed one stays as it is. -/
structure Trace where
  level : Int
  text : Option String
  isOpen : Bool

namespace Trace

def start (level : Int) : Trace :=
  ⟨level, if 0 < level then some "" else none, 0 < level⟩

/-- Whether the line of an event is due. -/
def shows (t : Trace) (e : Event) : Bool :=
  t.isOpen && decide (e.level ≤ t.level)

/-- Writes the line of an event if it is due; a ragged text is given back. -/
def write (t : Trace) (e : Event) : Except Ragged Trace :=
  if t.shows e then
    match e.text with
    | .whole line => .ok { t with text := t.text.map fun file => file ++ line ++ "\n" }
    | .ragged r => .error r
  else .ok t

def close (t : Trace) : Trace :=
  { t with isOpen := false }

end Trace

end LoxLang.Run
