import LoxLang.Number.Whole
import LoxLang.Tree.Basic
import LoxLang.Value.Text

/-!
Trees as data, the form in which they are kept in files.

A node is a dictionary with its class under `type` and its parts under their names, and a token is
one with `Token` under `__type__`. `toObject` and `ofObject` go from trees to data and back; a
literal keeps its value as it is.
-/
namespace LoxLang

/-- Values that have no form as data. -/
inductive SaveError where
  | unsupported (v : Value)

def SaveError.message : SaveError → String
  | .unsupported v => "Unsupported node for serialization: " ++ v.className

inductive LoadError where
  | invalidObject
  | missingMember (key : String)
  | unknownKind (kind : Value)
  | notAKey (v : Value)
  | notASequence (v : Value)
  | notANumeral (v : Value)
  | badLine (e : Number.WholeError)
  | tooLarge
  | unknownNode (type : Value)
  | notAProgram

def LoadError.message : LoadError → Text
  | .invalidObject => "Invalid AST object"
  | .missingMember key => Text.quoted key
  | .unknownKind kind => kind.described
  | .notAKey v => "unhashable type: '" ++ v.className ++ "'"
  | .notASequence v => "'" ++ v.className ++ "' object is not iterable"
  | .notANumeral v =>
    "int() argument must be a string, a bytes-like object or a real number, not '" ++
      v.className ++ "'"
  | .badLine e => e.message
  | .tooLarge => "int too large to convert to float"
  | .unknownNode type => "Unknown AST node type: " ++ type.text
  | .notAProgram => "Expected a Program object"

/-- Whether the data hold a number that is too large to convert. -/
def LoadError.isOverflow : LoadError → Bool
  | .tooLarge | .badLine .infinite => true
  | _ => false

namespace Value

/-- The dictionary of a node. -/
def record (className : String) (parts : List (Text × Value)) : Value :=
  .dict (("type", .string className) :: parts)

mutual

def toObject : Value → Except SaveError Value
  | .nil => .ok .nil
  | .bool b => .ok (.bool b)
  | .number x => .ok (.number x)
  | .string s => .ok (.string s)
  | .noNumber mark => .ok (.noNumber mark)
  | .token kind lexeme literal line =>
    .ok (.dict [("__type__", .string "Token"), ("type", .string kind.name), ("lexeme", lexeme),
      ("literal", literal), ("line", .integer line)])
  | .node (.literal value) => .ok (record "Literal" [("value", value)])
  | .node (.grouping e) => do
    .ok (record "Grouping" [("expression", ← e.toObject)])
  | .node (.unary operator right) => do
    .ok (record "Unary" [("operator", ← operator.toObject), ("right", ← right.toObject)])
  | .node (.binary left operator right) => do
    .ok (record "Binary" [("left", ← left.toObject), ("operator", ← operator.toObject),
      ("right", ← right.toObject)])
  | .node (.variable name) => do
    .ok (record "Variable" [("name", ← name.toObject)])
  | .node (.assign name value) => do
    .ok (record "Assign" [("name", ← name.toObject), ("value", ← value.toObject)])
  | .node (.expression e) => do
    .ok (record "Expression" [("expression", ← e.toObject)])
  | .node (.print e) => do
    .ok (record "Print" [("expression", ← e.toObject)])
  | .node (.var name initializer) => do
    .ok (record "Var" [("name", ← name.toObject), ("initializer", ← initializer.toObject)])
  | .node (.block statements) => do
    .ok (record "Block" [("statements", .list (← toObjects statements))])
  | v => .error (.unsupported v)

def toObjects : List Value → Except SaveError (List Value)
  | [] => .ok []
  | v :: vs => do .ok ((← v.toObject) :: (← toObjects vs))

end

/-- The members of a dictionary by name. -/
def member {α : Type} (key : String) (members : List (Text × α)) : Except LoadError α :=
  match members.lookup (.whole key) with
  | some a => .ok a
  | none => .error (.missingMember key)

/-- The kind of token that a value names. -/
def kindNamed : Value → Except LoadError TokenKind
  | .string (.whole s) =>
    match TokenKind.ofName? s with
    | some kind => .ok kind
    | none => .error (.unknownKind (.string s))
  | v => .error (if v.isCollection then .notAKey v else .unknownKind v)

/-- The line number that a value denotes. -/
def lineNumber : Value → Except LoadError Int
  | .integer n => .ok n
  | .bool b => .ok (if b then 1 else 0)
  | .number x => (Number.wholeOfFloat x).mapError .badLine
  | .string s => (Number.wholeOfText s).mapError .badLine
  | v => .error (.notANumeral v)

/-- The token that a dictionary describes. -/
def tokenOfMembers (members : List (Text × Value)) : Except LoadError Value := do
  let kind ← kindNamed (← member "type" members)
  let lexeme ← member "lexeme" members
  let literal := (members.lookup (.whole "literal")).getD .nil
  let line ← lineNumber (← member "line" members)
  .ok (.token kind lexeme literal line)

/-- A member of a dictionary as loaded: as a tree, and item by item. -/
structure Part where
  tree : Except LoadError Value
  items : Except LoadError (List Value)

/-- The part of the given name as a tree. -/
def partOf (key : String) (parts : List (Text × Part)) : Except LoadError Value := do
  (← member key parts).tree

/-- The node of the class that `type` names, with the given parts. -/
def nodeOfParts (type : Value) (parts : List (Text × Part)) : Except LoadError Value :=
  match type with
  | .string (.whole "Literal") => do
    .ok (.node (.literal (← partOf "value" parts)))
  | .string (.whole "Grouping") => do
    .ok (.node (.grouping (← partOf "expression" parts)))
  | .string (.whole "Unary") => do
    .ok (.node (.unary (← partOf "operator" parts) (← partOf "right" parts)))
  | .string (.whole "Binary") => do
    .ok (.node (.binary (← partOf "left" parts) (← partOf "operator" parts)
      (← partOf "right" parts)))
  | .string (.whole "Variable") => do
    .ok (.node (.variable (← partOf "name" parts)))
  | .string (.whole "Assign") => do
    .ok (.node (.assign (← partOf "name" parts) (← partOf "value" parts)))
  | .string (.whole "Expression") => do
    .ok (.node (.expression (← partOf "expression" parts)))
  | .string (.whole "Print") => do
    .ok (.node (.print (← partOf "expression" parts)))
  | .string (.whole "Var") => do
    let name ← partOf "name" parts
    let initializer ← ((parts.lookup (.whole "initializer")).map (·.tree)).getD (.ok .nil)
    .ok (.node (.var name initializer))
  | .string (.whole "Block") => do
    .ok (.node (.block (← (← member "statements" parts).items)))
  | _ => .error (.unknownNode type)

mutual

/-- The tree that data describe. Whole numbers count as doubles. -/
def ofObject : Value → Except LoadError Value
  | .nil => .ok .nil
  | .bool b => .ok (.bool b)
  | .string s => .ok (.string s)
  | .number x => .ok (.number x)
  | .noNumber mark => .ok (.noNumber mark)
  | .integer n =>
    match Number.ofInt? n with
    | some x => .ok (.number x)
    | none => .error .tooLarge
  | .dict members =>
    match members.lookup (.whole "__type__") with
    | some (.string (.whole "Token")) => tokenOfMembers members
    | _ => nodeOfParts ((members.lookup (.whole "type")).getD .nil) (partsOf members)
  | _ => .error .invalidObject

/-- The trees that the items of a value describe: of a list its items, of a string its characters
and of a dictionary its keys. -/
def itemsOfObject : Value → Except LoadError (List Value)
  | .list items => ofObjects items
  | .string s => .ok (s.points.map fun p => .string (.ofPoints [p]))
  | .dict members => .ok (members.map fun (key, _) => .string key)
  | v => .error (.notASequence v)

def ofObjects : List Value → Except LoadError (List Value)
  | [] => .ok []
  | v :: vs => do .ok ((← v.ofObject) :: (← ofObjects vs))

def partsOf : List (Text × Value) → List (Text × Part)
  | [] => []
  | (key, v) :: rest => (key, ⟨v.ofObject, v.itemsOfObject⟩) :: partsOf rest

end

/-- A program as data. -/
def programToObject (statements : List Value) : Except SaveError Value := do
  .ok (record "Program" [("body", .list (← toObjects statements))])

/-- The statements of a program kept as data. -/
def programOfObject : Value → Except LoadError (List Value)
  | .dict members =>
    match members.lookup (.whole "type") with
    | some (.string (.whole "Program")) => do itemsOfObject (← member "body" members)
    | _ => .error .notAProgram
  | _ => .error .notAProgram

end Value

end LoxLang
