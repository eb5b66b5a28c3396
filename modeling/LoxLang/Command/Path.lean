/-!
Paths: the names between slashes. Empty names and single points do not count, two points lead to
the enclosing directory.
-/
namespace LoxLang.Command

structure Path where
  /-- The slashes in front: none, one, or just two. -/
  root : List Char
  names : List (List Char)
deriving DecidableEq, Repr

namespace Path

/-- The pieces of a text between slashes. -/
def pieces : List Char → List (List Char)
  | [] => [[]]
  | c :: cs =>
    if c = '/' then [] :: pieces cs
    else
      match pieces cs with
      | [] => [[c]]
      | piece :: rest => (c :: piece) :: rest

def ofText (text : String) : Path :=
  let cs := text.toList
  let slashes := cs.takeWhile (· == '/')
  ⟨if 2 < slashes.length then ['/'] else slashes,
    (pieces cs).filter fun name => name ≠ [] ∧ name ≠ ['.']⟩

def text (p : Path) : String :=
  match p.root, p.names with
  | [], [] => "."
  | root, names => String.ofList (root ++ ['/'].intercalate names)

/-- Lengthens the last name. -/
def extend (p : Path) (ending : String) : Path :=
  match p.names.getLast? with
  | some name => { p with names := p.names.dropLast ++ [name ++ ending.toList] }
  | none => p

end Path

end LoxLang.Command
