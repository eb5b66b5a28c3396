import LoxLang.Proofs.Grammar.WellFormed
import LoxLang.Tree.Object

/-! Trees are loaded back from the data that they are kept as. -/
namespace LoxLang.Value

/-- Values that are kept as they are wherever they stand. -/
def isScalar : Value → Bool
  | .nil | .bool _ | .number _ | .string _ | .noNumber _ => true
  | _ => false

mutual

/--
A tree whose literals are scalars and whose data, down to the texts, literals and lines of its
tokens, have the property `P`. Any tree may stand in any place.
-/
def IsTree (P : Value → Prop) : Value → Prop
  | .token _ lexeme literal line => P lexeme ∧ P literal ∧ P (.integer line)
  | .node (.literal value) => value.isScalar ∧ P value
  | .node (.grouping e) => IsTree P e
  | .node (.unary operator right) => IsTree P operator ∧ IsTree P right
  | .node (.binary left operator right) => IsTree P left ∧ IsTree P operator ∧ IsTree P right
  | .node (.variable name) => IsTree P name
  | .node (.assign name value) => IsTree P name ∧ IsTree P value
  | .node (.expression e) => IsTree P e
  | .node (.print e) => IsTree P e
  | .node (.var name initializer) => IsTree P name ∧ IsTree P initializer
  | .node (.block statements) => AreTrees P statements
  | v => v.isScalar ∧ P v

def AreTrees (P : Value → Prop) : List Value → Prop
  | [] => True
  | v :: vs => IsTree P v ∧ AreTrees P vs

end

variable {P : Value → Prop}

theorem toObject_scalar {v : Value} (h : v.isScalar) : v.toObject = .ok v := by
  cases v with
  | integer | list | dict | token | node => exact absurd h Bool.false_ne_true
  | _ => rfl

theorem ofObject_scalar {v : Value} (h : v.isScalar) : v.ofObject = .ok v := by
  cases v with
  | integer | list | dict | token | node => exact absurd h Bool.false_ne_true
  | _ => rfl

theorem ofObject_token (kind : TokenKind) (lexeme literal : Value) (line : Int) :
    ofObject (.dict [("__type__", .string "Token"), ("type", .string kind.name), ("lexeme", lexeme),
      ("literal", literal), ("line", .integer line)]) =
      .ok (.token kind lexeme literal line) := by
  simp [ofObject, tokenOfMembers, member, kindNamed, lineNumber, List.lookup_cons, bind, Except.bind,
    TokenKind.ofName?_name]

theorem lookup_partsOf (key : Text) (members : List (Text × Value)) :
    (partsOf members).lookup key =
      (members.lookup key).map fun v => ⟨v.ofObject, v.itemsOfObject⟩ := by
  induction members with
  | nil => rfl
  | cons m members ih =>
    obtain ⟨k, v⟩ := m
    rw [partsOf, List.lookup_cons, List.lookup_cons]
    split
    · rfl
    · exact ih

/-- A dictionary that is not one of a token is a node with the parts that its members describe. -/
theorem ofObject_record (className : String) {parts : List (Text × Value)}
    (h : parts.lookup (.whole "__type__") = none) :
    ofObject (record className parts) =
      nodeOfParts (.string className) (partsOf (("type", .string className) :: parts)) := by
  have htype : List.lookup (Text.whole "__type__")
      ((.whole "type", Value.string className) :: parts) = none := by
    simpa [List.lookup_cons] using h
  rw [record, ofObject, htype]
  rfl

/-- A property of data that lists, and dictionaries with whole keys and none of them twice, have from
their parts. -/
structure Hereditary (P : Value → Prop) : Prop where
  text : ∀ s : String, P (.string s)
  list : ∀ {items : List Value}, (∀ v ∈ items, P v) → P (.list items)
  dict : ∀ {members : List (Text × Value)}, (members.map (·.1)).Nodup →
    (∀ m ∈ members, m.1.isWhole ∧ P m.2) → P (.dict members)

theorem Hereditary.record (hP : Hereditary P) (className : String) {parts : List (Text × Value)}
    (hkeys : (Text.whole "type" :: parts.map (·.1)).Nodup) (h : ∀ m ∈ parts, m.1.isWhole ∧ P m.2) :
    P (record className parts) :=
  hP.dict hkeys (List.forall_mem_cons.mpr ⟨⟨rfl, hP.text className⟩, h⟩)

/-- A tree that has a form as data with the property `P`, from which it is loaded. -/
def Returns (P : Value → Prop) (v : Value) : Prop :=
  ∃ o, v.toObject = .ok o ∧ o.ofObject = .ok v ∧ P o

theorem returns_scalar {v : Value} (h : v.isScalar ∧ P v) : v.Returns P :=
  ⟨v, toObject_scalar h.1, ofObject_scalar h.1, h.2⟩

attribute [local simp] toObject nodeOfParts partOf member

theorem returns_token (hP : Hereditary P) {kind : TokenKind} {lexeme literal : Value} {line : Int}
    (h : P lexeme ∧ P literal ∧ P (.integer line)) :
    (Value.token kind lexeme literal line).Returns P := by
  refine ⟨_, rfl, ofObject_token kind lexeme literal line, hP.dict (by simp) ?_⟩
  simp [hP.text, h]

theorem returns_literal (hP : Hereditary P) {v : Value} (h : v.isScalar ∧ P v) :
    (Value.node (.literal v)).Returns P := by
  refine ⟨record "Literal" [("value", v)], rfl, ?_, hP.record _ (by simp) (by simp [h.2])⟩
  rw [ofObject_record _ rfl]
  simp [lookup_partsOf, List.lookup_cons, bind, Except.bind,
    ofObject_scalar h.1]

theorem returns_grouping (hP : Hereditary P) {e : Value} (h : e.Returns P) :
    (Value.node (.grouping e)).Returns P := by
  obtain ⟨o, hto, hof, ho⟩ := h
  refine ⟨record "Grouping" [("expression", o)], ?_, ?_, hP.record _ (by simp) (by simp [ho])⟩
  · rw [toObject, hto]
    rfl
  · rw [ofObject_record _ rfl]
    simp [lookup_partsOf, List.lookup_cons, bind, Except.bind, hof]

theorem returns_unary (hP : Hereditary P) {operator right : Value}
    (h1 : operator.Returns P) (h2 : right.Returns P) :
    (Value.node (.unary operator right)).Returns P := by
  obtain ⟨o₁, hto₁, hof₁, ho₁⟩ := h1
  obtain ⟨o₂, hto₂, hof₂, ho₂⟩ := h2
  refine ⟨record "Unary" [("operator", o₁), ("right", o₂)], ?_, ?_,
    hP.record _ (by simp) (by simp [ho₁, ho₂])⟩
  · rw [toObject, hto₁, hto₂]
    rfl
  · rw [ofObject_record _ rfl]
    simp [lookup_partsOf, List.lookup_cons, bind, Except.bind, hof₁, hof₂]

theorem returns_binary (hP : Hereditary P) {left operator right : Value}
    (h1 : left.Returns P) (h2 : operator.Returns P) (h3 : right.Returns P) :
    (Value.node (.binary left operator right)).Returns P := by
  obtain ⟨o₁, hto₁, hof₁, ho₁⟩ := h1
  obtain ⟨o₂, hto₂, hof₂, ho₂⟩ := h2
  obtain ⟨o₃, hto₃, hof₃, ho₃⟩ := h3
  refine ⟨record "Binary" [("left", o₁), ("operator", o₂), ("right", o₃)], ?_, ?_,
    hP.record _ (by simp) (by simp [ho₁, ho₂, ho₃])⟩
  · rw [toObject, hto₁, hto₂, hto₃]
    rfl
  · rw [ofObject_record _ rfl]
    simp [lookup_partsOf, List.lookup_cons, bind, Except.bind,
      hof₁, hof₂, hof₃]

theorem returns_variable (hP : Hereditary P) {name : Value} (h : name.Returns P) :
    (Value.node (.variable name)).Returns P := by
  obtain ⟨o, hto, hof, ho⟩ := h
  refine ⟨record "Variable" [("name", o)], ?_, ?_, hP.record _ (by simp) (by simp [ho])⟩
  · rw [toObject, hto]
    rfl
  · rw [ofObject_record _ rfl]
    simp [lookup_partsOf, List.lookup_cons, bind, Except.bind, hof]

theorem returns_assign (hP : Hereditary P) {name value : Value}
    (h1 : name.Returns P) (h2 : value.Returns P) :
    (Value.node (.assign name value)).Returns P := by
  obtain ⟨o₁, hto₁, hof₁, ho₁⟩ := h1
  obtain ⟨o₂, hto₂, hof₂, ho₂⟩ := h2
  refine ⟨record "Assign" [("name", o₁), ("value", o₂)], ?_, ?_,
    hP.record _ (by simp) (by simp [ho₁, ho₂])⟩
  · rw [toObject, hto₁, hto₂]
    rfl
  · rw [ofObject_record _ rfl]
    simp [lookup_partsOf, List.lookup_cons, bind, Except.bind, hof₁, hof₂]

theorem returns_expression (hP : Hereditary P) {e : Value} (h : e.Returns P) :
    (Value.node (.expression e)).Returns P := by
  obtain ⟨o, hto, hof, ho⟩ := h
  refine ⟨record "Expression" [("expression", o)], ?_, ?_, hP.record _ (by simp) (by simp [ho])⟩
  · rw [toObject, hto]
    rfl
  · rw [ofObject_record _ rfl]
    simp [lookup_partsOf, List.lookup_cons, bind, Except.bind, hof]

theorem returns_print (hP : Hereditary P) {e : Value} (h : e.Returns P) :
    (Value.node (.print e)).Returns P := by
  obtain ⟨o, hto, hof, ho⟩ := h
  refine ⟨record "Print" [("expression", o)], ?_, ?_, hP.record _ (by simp) (by simp [ho])⟩
  · rw [toObject, hto]
    rfl
  · rw [ofObject_record _ rfl]
    simp [lookup_partsOf, List.lookup_cons, bind, Except.bind, hof]

theorem returns_var (hP : Hereditary P) {name initializer : Value}
    (h1 : name.Returns P) (h2 : initializer.Returns P) :
    (Value.node (.var name initializer)).Returns P := by
  obtain ⟨o₁, hto₁, hof₁, ho₁⟩ := h1
  obtain ⟨o₂, hto₂, hof₂, ho₂⟩ := h2
  refine ⟨record "Var" [("name", o₁), ("initializer", o₂)], ?_, ?_,
    hP.record _ (by simp) (by simp [ho₁, ho₂])⟩
  · rw [toObject, hto₁, hto₂]
    rfl
  · rw [ofObject_record _ rfl]
    simp [lookup_partsOf, List.lookup_cons, bind, Except.bind, hof₁, hof₂]

theorem returns_block (hP : Hereditary P) {statements os : List Value}
    (hto : toObjects statements = .ok os) (hof : ofObjects os = .ok statements)
    (hos : ∀ o ∈ os, P o) : (Value.node (.block statements)).Returns P := by
  refine ⟨record "Block" [("statements", .list os)], ?_, ?_,
    hP.record _ (by simp) (by simpa using hP.list hos)⟩
  · rw [toObject, hto]
    rfl
  · rw [ofObject_record _ rfl]
    simp [lookup_partsOf, List.lookup_cons, bind, Except.bind, itemsOfObject, hof]

mutual

theorem IsTree.returns (hP : Hereditary P) : (v : Value) → IsTree P v → v.Returns P
  | .nil, h => returns_scalar h
  | .bool _, h => returns_scalar h
  | .number _, h => returns_scalar h
  | .string _, h => returns_scalar h
  | .noNumber _, h => returns_scalar h
  | .token _ _ _ _, h => returns_token hP h
  | .node (.literal _), h => returns_literal hP h
  | .node (.grouping e), h => returns_grouping hP (IsTree.returns hP e h)
  | .node (.unary operator right), h =>
    returns_unary hP (IsTree.returns hP operator h.1) (IsTree.returns hP right h.2)
  | .node (.binary left operator right), h =>
    returns_binary hP (IsTree.returns hP left h.1) (IsTree.returns hP operator h.2.1)
      (IsTree.returns hP right h.2.2)
  | .node (.variable name), h => returns_variable hP (IsTree.returns hP name h)
  | .node (.assign name value), h =>
    returns_assign hP (IsTree.returns hP name h.1) (IsTree.returns hP value h.2)
  | .node (.expression e), h => returns_expression hP (IsTree.returns hP e h)
  | .node (.print e), h => returns_print hP (IsTree.returns hP e h)
  | .node (.var name initializer), h =>
    returns_var hP (IsTree.returns hP name h.1) (IsTree.returns hP initializer h.2)
  | .node (.block statements), h => by
    obtain ⟨os, hto, hof, hos⟩ := AreTrees.return hP statements h
    exact returns_block hP hto hof hos

theorem AreTrees.return (hP : Hereditary P) : (vs : List Value) → AreTrees P vs →
    ∃ os, toObjects vs = .ok os ∧ ofObjects os = .ok vs ∧ ∀ o ∈ os, P o
  | [], _ => ⟨[], rfl, rfl, by simp⟩
  | v :: vs, h => by
    obtain ⟨o, hto, hof, ho⟩ := IsTree.returns hP v h.1
    obtain ⟨os, htos, hofs, hos⟩ := AreTrees.return hP vs h.2
    refine ⟨o :: os, ?_, ?_, List.forall_mem_cons.mpr ⟨ho, hos⟩⟩
    · rw [toObjects, hto, htos]
      rfl
    · rw [ofObjects, hof, hofs]
      rfl

end

/-- Programs are loaded back from the data that they are kept as. -/
theorem programOfObject_programToObject (hP : Hereditary P) {statements : List Value}
    (h : AreTrees P statements) :
    ∃ o, programToObject statements = .ok o ∧ programOfObject o = .ok statements ∧ P o := by
  obtain ⟨os, hto, hof, hos⟩ := AreTrees.return hP statements h
  refine ⟨record "Program" [("body", .list os)], ?_, ?_,
    hP.record _ (by simp) (by simpa using hP.list hos)⟩
  · rw [programToObject, hto]
    rfl
  · simp [record, programOfObject, List.lookup_cons, bind, Except.bind, itemsOfObject, hof]

end LoxLang.Value

namespace LoxLang

variable {V P : Value → Prop} {T : Token → Prop}

/-- What the tokens and literals of a program must have for its tree to have the property `P`. -/
structure TreeData (V : Value → Prop) (T : Token → Prop) (P : Value → Prop) : Prop where
  nil : P .nil
  literal : ∀ v, V v → v.isScalar ∧ P v
  token : ∀ t, T t → P (.string t.lexeme) ∧ P t.literal ∧ P (.integer t.line)

theorem Expr.Consists.isTree (hP : TreeData V T P) {e : Expr} (h : e.Consists V T) :
    e.toValue.IsTree P := by
  induction e with
  | literal v => exact hP.literal v h
  | grouping e ih => exact ih h
  | unary operator e ih => exact ⟨hP.token _ h.2.1, ih h.2.2⟩
  | binary l operator r ihl ihr => exact ⟨ihl h.2.2.1, hP.token _ h.2.1, ihr h.2.2.2⟩
  | «variable» name => exact hP.token _ h.2
  | assign name e ih => exact ⟨hP.token _ h.2.1, ih h.2.2⟩

mutual

theorem Stmt.Consists.isTree (hP : TreeData V T P) :
    {s : Stmt} → s.Consists V T → s.toValue.IsTree P
  | .expression _, h => Expr.Consists.isTree hP h
  | .print _, h => Expr.Consists.isTree hP h
  | .var _ none, h => ⟨hP.token _ h.2.1, rfl, hP.nil⟩
  | .var _ (some e), h => ⟨hP.token _ h.2.1, (h.2.2 e rfl).isTree hP⟩
  | .block body, h => Stmt.AllConsist.areTrees hP body h

theorem Stmt.AllConsist.areTrees (hP : TreeData V T P) : (ss : List Stmt) →
    Stmt.AllConsist V T ss → Value.AreTrees P (Stmt.toValues ss)
  | [], _ => trivial
  | _ :: ss, h => ⟨h.1.isTree hP, Stmt.AllConsist.areTrees hP ss h.2⟩

end

end LoxLang
