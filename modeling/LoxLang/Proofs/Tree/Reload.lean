import LoxLang.Proofs.Run.Safety
import LoxLang.Proofs.Tree.RoundTrip

/-!
Loading trees again.

Data can describe trees of any shape, with scalars or tokens where an expression belongs. Whatever
is loaded is kept as data and loaded back the same, as long as its literals hold no trees.
-/
namespace LoxLang.Value

/-- Nodes and tokens are parts of trees and no data. -/
def isTreePart : Value → Bool
  | .token .. | .node _ => true
  | _ => false

mutual

/-- No literal in the tree holds a node or a token. -/
def PlainLiterals : Value → Prop
  | .node (.literal value) => ¬ value.isTreePart
  | .node (.grouping e) => PlainLiterals e
  | .node (.unary operator right) => PlainLiterals operator ∧ PlainLiterals right
  | .node (.binary left operator right) =>
    PlainLiterals left ∧ PlainLiterals operator ∧ PlainLiterals right
  | .node (.variable name) => PlainLiterals name
  | .node (.assign name value) => PlainLiterals name ∧ PlainLiterals value
  | .node (.expression e) => PlainLiterals e
  | .node (.print e) => PlainLiterals e
  | .node (.var name initializer) => PlainLiterals name ∧ PlainLiterals initializer
  | .node (.block statements) => AllPlainLiterals statements
  | _ => True

def AllPlainLiterals : List Value → Prop
  | [] => True
  | v :: vs => PlainLiterals v ∧ AllPlainLiterals vs

end

theorem allPlainLiterals_iff {vs : List Value} : AllPlainLiterals vs ↔ ∀ v ∈ vs, v.PlainLiterals := by
  induction vs with
  | nil => simp [AllPlainLiterals]
  | cons v vs ih => simp [AllPlainLiterals, ih]

theorem areTrees_iff {P : Value → Prop} {vs : List Value} : AreTrees P vs ↔ ∀ v ∈ vs, v.IsTree P := by
  induction vs with
  | nil => simp [AreTrees]
  | cons v vs ih => simp [AreTrees, ih]

/-- A value that is a tree unless there are trees in its literals. -/
def IsLoaded (v : Value) : Prop :=
  v.PlainLiterals → v.IsTree fun _ => True

def AreLoaded (vs : List Value) : Prop :=
  AllPlainLiterals vs → AreTrees (fun _ => True) vs

theorem isLoaded_scalar {v : Value} (h : v.isScalar) : v.IsLoaded := by
  cases v with
  | integer | list | dict | token | node => exact absurd h Bool.false_ne_true
  | _ => exact fun _ => ⟨rfl, trivial⟩

/-- A literal that holds no tree holds a scalar, as data in other forms are not loaded. -/
theorem IsLoaded.literal {v : Value} (h : v.IsLoaded) : (Value.node (.literal v)).IsLoaded := by
  intro hplain
  cases v with
  | token | node => exact absurd rfl hplain
  | _ => exact h trivial

variable {α β : Type}

/-- What is loaded, if anything, has the property. -/
def Loads (Q : α → Prop) (x : Except LoadError α) : Prop :=
  ∀ a, x = .ok a → Q a

theorem loads_ok {Q : α → Prop} {a : α} (h : Q a) : Loads Q (.ok a) := by
  rintro _ ⟨⟩
  exact h

theorem loads_error {Q : α → Prop} (e : LoadError) : Loads Q (.error e) :=
  nofun

theorem Loads.bind {Q : α → Prop} {R : β → Prop} {x : Except LoadError α}
    {f : α → Except LoadError β} (hx : Loads Q x) (hf : ∀ a, Q a → Loads R (f a)) :
    Loads R (x >>= f) := by
  cases x with
  | error e => exact loads_error e
  | ok a => exact hf a (hx a rfl)

/-- Parts that load trees. -/
def Part.Loads (p : Part) : Prop :=
  Value.Loads IsLoaded p.tree ∧ Value.Loads AreLoaded p.items

theorem mem_of_lookup {key : Text} {members : List (Text × α)} {a : α}
    (h : members.lookup key = some a) : (key, a) ∈ members := by
  obtain ⟨before, behind, rfl, -⟩ := List.lookup_eq_some_iff.mp h
  simp

theorem loads_member {Q : α → Prop} {members : List (Text × α)} (h : ∀ m ∈ members, Q m.2)
    (key : String) : Loads Q (member key members) := by
  unfold member
  split
  · next a ha => exact loads_ok (h _ (mem_of_lookup ha))
  · exact loads_error _

theorem loads_any (x : Except LoadError α) : Loads (fun _ => True) x :=
  fun _ _ => trivial

theorem loads_tokenOfMembers (members : List (Text × Value)) :
    Loads IsLoaded (tokenOfMembers members) :=
  (loads_any _).bind fun _ _ => (loads_any _).bind fun _ _ => (loads_any _).bind fun _ _ =>
    (loads_any _).bind fun _ _ => (loads_any _).bind fun _ _ =>
      loads_ok fun _ => ⟨trivial, trivial, trivial⟩

section

variable {parts : List (Text × Part)}

theorem loads_partOf (h : ∀ p ∈ parts, p.2.Loads) (key : String) : Loads IsLoaded (partOf key parts) :=
  (loads_member h key).bind fun _ hp => hp.1

theorem loads_initializer (h : ∀ p ∈ parts, p.2.Loads) :
    Loads IsLoaded (((parts.lookup (.whole "initializer")).map (·.tree)).getD (.ok .nil)) := by
  cases hlookup : parts.lookup (.whole "initializer") with
  | none => exact loads_ok (isLoaded_scalar rfl)
  | some p => exact (h _ (mem_of_lookup hlookup)).1

theorem loads_nodeOfParts (type : Value) (h : ∀ p ∈ parts, p.2.Loads) :
    Loads IsLoaded (nodeOfParts type parts) := by
  have hpart (key : String) : Loads IsLoaded (partOf key parts) := loads_partOf h key
  unfold nodeOfParts
  split
  · exact (hpart _).bind fun v hv => loads_ok hv.literal
  · exact (hpart _).bind fun e he => loads_ok he
  · exact (hpart _).bind fun o ho => (hpart _).bind fun r hr =>
      loads_ok fun hplain => ⟨ho hplain.1, hr hplain.2⟩
  · exact (hpart _).bind fun l hl => (hpart _).bind fun o ho => (hpart _).bind fun r hr =>
      loads_ok fun hplain => ⟨hl hplain.1, ho hplain.2.1, hr hplain.2.2⟩
  · exact (hpart _).bind fun n hn => loads_ok hn
  · exact (hpart _).bind fun n hn => (hpart _).bind fun v hv =>
      loads_ok fun hplain => ⟨hn hplain.1, hv hplain.2⟩
  · exact (hpart _).bind fun e he => loads_ok he
  · exact (hpart _).bind fun e he => loads_ok he
  · exact (hpart _).bind fun n hn => (loads_initializer h).bind fun i hi =>
      loads_ok fun hplain => ⟨hn hplain.1, hi hplain.2⟩
  -- the statements of a block are the only part that is loaded item by item
  · exact (loads_member h _).bind fun p hp => hp.2.bind fun ss hss => loads_ok hss
  · exact loads_error _

end

/-- Characters and keys are loaded as texts. -/
theorem areLoaded_texts (items : List α) (text : α → Text) :
    AreLoaded (items.map fun a => .string (text a)) := by
  intro _
  rw [areTrees_iff]
  intro v hv
  obtain ⟨a, -, rfl⟩ := List.mem_map.mp hv
  exact ⟨rfl, trivial⟩

mutual

theorem loads_ofObject : (o : Value) → Loads IsLoaded o.ofObject
  | .nil | .bool _ | .string _ | .number _ | .noNumber _ => loads_ok (isLoaded_scalar rfl)
  | .integer n => by
    rw [ofObject]
    cases Number.ofInt? n with
    | some x => exact loads_ok (isLoaded_scalar rfl)
    | none => exact loads_error _
  | .dict members => by
    rw [ofObject]
    split
    · exact loads_tokenOfMembers members
    · exact loads_nodeOfParts _ (loads_partsOf members)
  | .list _ | .token .. | .node _ => loads_error _

theorem loads_itemsOfObject : (o : Value) → Loads AreLoaded o.itemsOfObject
  | .list items => loads_ofObjects items
  | .string s => loads_ok (areLoaded_texts s.points fun p => .ofPoints [p])
  | .dict members => loads_ok (areLoaded_texts members (·.1))
  | .nil | .bool _ | .number _ | .noNumber _ | .integer _ | .token .. | .node _ => loads_error _

theorem loads_ofObjects : (os : List Value) → Loads AreLoaded (ofObjects os)
  | [] => loads_ok fun _ => trivial
  | o :: os => (loads_ofObject o).bind fun _ hv => (loads_ofObjects os).bind fun _ hvs =>
      loads_ok fun hplain => ⟨hv hplain.1, hvs hplain.2⟩

theorem loads_partsOf : (members : List (Text × Value)) → ∀ p ∈ partsOf members, p.2.Loads
  | [] => nofun
  | (_, v) :: rest =>
    List.forall_mem_cons.mpr ⟨⟨loads_ofObject v, loads_itemsOfObject v⟩, loads_partsOf rest⟩

end

theorem loads_programOfObject (o : Value) : Loads AreLoaded (programOfObject o) := by
  unfold programOfObject
  split
  · split
    · exact (loads_any _).bind fun body _ => loads_itemsOfObject body
    · exact loads_error _
  · exact loads_error _

theorem hereditary_true : Hereditary fun _ => True :=
  ⟨fun _ => trivial, fun _ => trivial, fun _ _ => trivial⟩

/-- The statements that a source text is taken for have a form as data. -/
theorem areTrees_parse_scan (source : String) :
    ∃ ss, (Grammar.parse (Source.scan source).tokens).result = .ok ss ∧
      AreTrees (fun _ => True) (Stmt.toValues ss) := by
  obtain ⟨ss, hss, hwell⟩ := parse_scan_wellFormed source
  have hdata : TreeData (fun v => v.isLox) (fun _ => True) fun _ => True := by
    refine ⟨trivial, fun v hv => ⟨?_, trivial⟩, fun _ _ => ⟨trivial, trivial, trivial⟩⟩
    cases v with
    | integer | list | dict | token | node | noNumber => exact absurd hv Bool.false_ne_true
    | _ => rfl
  exact ⟨ss, hss, Stmt.AllConsist.areTrees hdata ss (Stmt.allConsist_iff.mpr hwell)⟩

/-- Every tree that is loaded from any data and whose literals hold no trees has a form as data, from
which it is loaded back. The same holds for programs of such trees, for all programs that source
texts are taken for, and for what is loaded as a program. -/
theorem loaded_reloads :
    (∀ o v : Value, o.ofObject = .ok v → v.PlainLiterals →
      ∃ o', v.toObject = .ok o' ∧ o'.ofObject = .ok v) ∧
    (∀ vs : List Value, (∀ v ∈ vs, (∃ o : Value, o.ofObject = .ok v) ∧ v.PlainLiterals) →
      ∃ o, programToObject vs = .ok o ∧ programOfObject o = .ok vs) ∧
    (∀ source, ∃ ss, (Grammar.parse (Source.scan source).tokens).result = .ok ss ∧
      ∃ o, programToObject (Stmt.toValues ss) = .ok o ∧
        programOfObject o = .ok (Stmt.toValues ss)) ∧
    ∀ (o : Value) (vs : List Value), programOfObject o = .ok vs → (∀ v ∈ vs, v.PlainLiterals) →
      ∃ o', programToObject vs = .ok o' ∧ programOfObject o' = programOfObject o := by
  have hprogram {vs : List Value} (h : AreTrees (fun _ => True) vs) :
      ∃ o, programToObject vs = .ok o ∧ programOfObject o = .ok vs := by
    obtain ⟨o, hto, hof, -⟩ := programOfObject_programToObject hereditary_true h
    exact ⟨o, hto, hof⟩
  refine ⟨?_, ?_, ?_, ?_⟩
  · intro o v hload hplain
    obtain ⟨o', hto, hof, -⟩ := IsTree.returns hereditary_true v (loads_ofObject o v hload hplain)
    exact ⟨o', hto, hof⟩
  · intro vs hvs
    refine hprogram (areTrees_iff.mpr fun v hv => ?_)
    obtain ⟨⟨o, hload⟩, hplain⟩ := hvs v hv
    exact loads_ofObject o v hload hplain
  · intro source
    obtain ⟨ss, hss, htrees⟩ := areTrees_parse_scan source
    exact ⟨ss, hss, hprogram htrees⟩
  · intro o vs hload hplain
    obtain ⟨o', hto, hof⟩ :=
      hprogram (loads_programOfObject o vs hload (allPlainLiterals_iff.mpr hplain))
    exact ⟨o', hto, hof.trans hload.symm⟩

/-- A block of a declaration of a text, without an initializer, and a token with a list for its text. -/
private def illFitting : Value :=
  record "Block" [("statements", .list [record "Var" [("name", .string "x")],
    .dict [("line", .bool true), ("lexeme", .list [.nil]), ("type", .string "MINUS"),
      ("__type__", .string "Token")]])]

theorem loaded_reloads_illFitting :
    let v : Value := .node (.block [.node (.var (.string "x") .nil), .token .minus (.list [.nil]) .nil 1])
    illFitting.ofObject = .ok v ∧ v.PlainLiterals ∧
      (∃ o, v.toObject = .ok o ∧ o.ofObject = .ok v) ∧
      (∃ o, programToObject [v] = .ok o ∧ programOfObject o = .ok [v]) ∧
      ∃ o, programToObject [.string "x"] = .ok o ∧
        programOfObject o = programOfObject (record "Program" [("body", .string "x")]) := by
  intro v
  have hload : illFitting.ofObject = .ok v := rfl
  have hplain : v.PlainLiterals := ⟨⟨trivial, trivial⟩, trivial, trivial⟩
  obtain ⟨htree, hprogram, -, hagain⟩ := loaded_reloads
  refine ⟨hload, hplain, htree illFitting v hload hplain, hprogram [v] ?_, hagain _ _ rfl ?_⟩
  · exact List.forall_mem_singleton.mpr ⟨⟨illFitting, hload⟩, hplain⟩
  · exact List.forall_mem_singleton.mpr trivial

end LoxLang.Value
