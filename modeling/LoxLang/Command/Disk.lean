import LoxLang.Command.Path

/-!
A disk: files and directories by their places, which are the names that lead to them from the root,
and the place of the working directory.

A path leads nowhere when there is nothing at its end, or when it or one of its names is too long. A
long name counts only where the names before it lead to a directory.
-/
namespace LoxLang.Command

inductive Entry where
  | file (bytes : ByteArray)
  | directory

/-- Why a path leads nowhere. -/
inductive Obstacle where
  | missing
  | tooLong
deriving DecidableEq, Repr

/-- The most bytes of a name. -/
def maxNameSize : Nat := 255

/-- The most bytes of a path. -/
def maxPathSize : Nat := 4095

def isTooLong (name : List Char) : Bool :=
  maxNameSize < (String.ofList name).utf8ByteSize

/-- The name that leads to the enclosing directory. -/
def parentName : List Char := ['.', '.']

structure Disk where
  entries : List (List (List Char) × Entry) := []
  /-- The place of the working directory. -/
  here : List (List Char) := []

namespace Disk

/-- What is at a place. The working directory and what lies above it or an entry are directories. -/
def find? (d : Disk) (place : List (List Char)) : Option Entry :=
  if place.isPrefixOf d.here then some .directory
  else
    match d.entries.lookup place with
    | some entry => some entry
    | none =>
      if d.entries.any fun (other, _) => place.isPrefixOf other then some .directory else none

/-- Where a list of names leads from a directory. The root encloses itself. -/
def walk (d : Disk) (place : List (List Char)) :
    List (List Char) → Except Obstacle (List (List Char) × Entry)
  | [] => .ok (place, .directory)
  | name :: rest =>
    if name = parentName then d.walk place.dropLast rest
    else if isTooLong name then .error .tooLong
    else
      match d.find? (place ++ [name]), rest with
      | some (.file bytes), [] => .ok (place ++ [name], .file bytes)
      | some .directory, rest => d.walk (place ++ [name]) rest
      | _, _ => .error .missing

/-- The directory that a path starts from. -/
def origin (d : Disk) (p : Path) : List (List Char) :=
  if p.root = [] then d.here else []

/-- What a path leads to: the place and what is there. -/
def follow (d : Disk) (p : Path) : Except Obstacle (List (List Char) × Entry) :=
  if p.text.toList.contains '\x00' then .error .missing
  else if maxPathSize < p.text.utf8ByteSize then .error .tooLong
  else d.walk (d.origin p) p.names

/-- What is at the end of a path. -/
def entry (d : Disk) (p : Path) : Except Obstacle Entry :=
  (d.follow p).map (·.2)

/-- Puts a file in the place of what was there. -/
def write (d : Disk) (place : List (List Char)) (text : String) : Disk :=
  let entry := Entry.file text.toUTF8
  if (d.entries.lookup place).isSome then
    { d with entries := d.entries.map fun (other, e) =>
        if other = place then (other, entry) else (other, e) }
  else { d with entries := d.entries ++ [(place, entry)] }

end Disk

/-- Every line ends in a single line feed. -/
def unifyLines : List Char → List Char
  | '\r' :: '\n' :: cs => '\n' :: unifyLines cs
  | '\r' :: cs => '\n' :: unifyLines cs
  | c :: cs => c :: unifyLines cs
  | [] => []

/-- The text of a file, unless it is not in UTF-8. -/
def textOf? (bytes : ByteArray) : Option String :=
  (String.fromUTF8? bytes).map fun s => String.ofList (unifyLines s.toList)

end LoxLang.Command
