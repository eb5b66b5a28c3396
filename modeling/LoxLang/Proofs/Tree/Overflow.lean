import LoxLang.Proofs.Number.Nearest
import LoxLang.Proofs.Tree.Reload

/-!
Numbers that loading breaks off on.

Loading data as a tree breaks off on a whole number that has no double and on a token on an infinite
line. It does so exactly if such a number is the first of all that cannot be loaded, in the order in
which the parts of nodes and the statements of blocks and programs are loaded.
-/
namespace LoxLang

theorem TokenKind.name_of_ofName? {s : String} {kind : TokenKind} (h : ofName? s = some kind) :
    s = kind.name := by
  have hnames : names.all fun entry => entry.1.name = entry.2 := by decide
  obtain ⟨entry, hentry, rfl⟩ := Option.map_eq_some_iff.mp h
  have hname := List.all_eq_true.mp hnames entry (List.mem_of_find?_eq_some hentry)
  have hs := List.find?_some hentry
  rw [decide_eq_true_eq] at hname hs
  rw [hname, hs]

theorem Number.wholeOfText_ne_infinite (s : Text) : wholeOfText s ≠ .error .infinite := by
  unfold wholeOfText
  extract_lets cs negative unsigned
  split
  · simp
  · split
    · simp
    · split <;> simp

theorem Number.wholeOfFloat_infinite_iff (x : Float) :
    wholeOfFloat x = .error .infinite ↔ magnitude x = infinityMagnitude := by
  unfold wholeOfFloat
  dsimp only
  split
  · next hfinite => exact iff_of_false nofun hfinite.ne
  · split
    · next hinfinite => exact iff_of_true rfl hinfinite
    · next hbeyond => exact iff_of_false nofun hbeyond

namespace Value

/-- Data that hold a number too large to convert: a whole number that has no double, and a token, in
order up to there, on an infinite line. -/
inductive Oversized : Value → Prop
  | integer {n : ℤ} (h : Number.overflowThreshold ≤ n.natAbs) : Oversized (.integer n)
  | token {members : List (Text × Value)} {kind : TokenKind} {lexeme : Value} {x : Float}
      (htoken : members.lookup (.whole "__type__") = some (.string "Token"))
      (hkind : members.lookup (.whole "type") = some (.string kind.name))
      (hlexeme : members.lookup (.whole "lexeme") = some lexeme)
      (hline : members.lookup (.whole "line") = some (.number x))
      (hx : Number.magnitude x = Number.infinityMagnitude) : Oversized (.dict members)

/-- The property holds of the value or of a part of it at any depth. -/
inductive Holds (P : Value → Prop) : Value → Prop
  | here {v : Value} (h : P v) : Holds P v
  | item {items : List Value} {v : Value} (hv : v ∈ items) (h : Holds P v) : Holds P (.list items)
  | member {members : List (Text × Value)} {m : Text × Value} (hm : m ∈ members)
      (h : Holds P m.2) : Holds P (.dict members)

/-- The parts of a node of each class, in the order in which they are loaded. -/
def partNames : String → List String
  | "Literal" => ["value"]
  | "Grouping" | "Expression" | "Print" => ["expression"]
  | "Unary" => ["operator", "right"]
  | "Binary" => ["left", "operator", "right"]
  | "Variable" => ["name"]
  | "Assign" => ["name", "value"]
  | "Var" => ["name", "initializer"]
  | _ => []

def Loadable (o : Value) : Prop :=
  ∃ v, o.ofObject = .ok v

/-- What cannot be loaded first of all is oversized: the data themselves, a part of a node, or a
statement of a block. -/
inductive BreaksOff : Value → Prop
  | here {o : Value} (h : Oversized o) : BreaksOff o
  | part {members : List (Text × Value)} {className key : String} {before after : List String}
      {o : Value} (hnode : members.lookup (.whole "__type__") ≠ some (.string "Token"))
      (hclass : members.lookup (.whole "type") = some (.string className))
      (hnames : partNames className = before ++ key :: after)
      (hbefore : ∀ name ∈ before, ∃ u, members.lookup (.whole name) = some u ∧ u.Loadable)
      (hpart : members.lookup (.whole key) = some o) (h : BreaksOff o) : BreaksOff (.dict members)
  | statement {members : List (Text × Value)} {before after : List Value} {o : Value}
      (hnode : members.lookup (.whole "__type__") ≠ some (.string "Token"))
      (hclass : members.lookup (.whole "type") = some (.string "Block"))
      (hpart : members.lookup (.whole "statements") = some (.list (before ++ o :: after)))
      (hbefore : ∀ u ∈ before, u.Loadable) (h : BreaksOff o) : BreaksOff (.dict members)

/-- The first statement of a program that cannot be loaded breaks off. -/
def ProgramBreaksOff (o : Value) : Prop :=
  ∃ members before bad after, o = .dict members ∧
    members.lookup (.whole "type") = some (.string "Program") ∧
    members.lookup (.whole "body") = some (.list (before ++ bad :: after)) ∧
    (∀ u ∈ before, u.Loadable) ∧ bad.BreaksOff

variable {α β : Type}

/-- Loading breaks off on a number too large to convert. -/
def Overflows (x : Except LoadError α) : Prop :=
  ∃ e, x = .error e ∧ e.isOverflow

theorem not_overflows_ok (a : α) : ¬ Overflows (.ok a : Except LoadError α) :=
  nofun

theorem overflows_error_iff (e : LoadError) :
    Overflows (.error e : Except LoadError α) ↔ e.isOverflow := by
  constructor
  · rintro ⟨_, ⟨⟩, he⟩
    exact he
  · intro he
    exact ⟨e, rfl, he⟩

theorem overflows_bind_iff {x : Except LoadError α} {f : α → Except LoadError β} :
    Overflows (x >>= f) ↔ Overflows x ∨ ∃ a, x = .ok a ∧ Overflows (f a) := by
  cases x with
  | error e =>
    have hbind : (Except.error e >>= f) = .error e := rfl
    simp [hbind, overflows_error_iff]
  | ok a =>
    have hbind : (Except.ok a >>= f) = f a := rfl
    simp [hbind, not_overflows_ok]

/-- The last step of loading breaks off nowhere. -/
theorem overflows_bind_ok_iff {x : Except LoadError α} {f : α → β} :
    Overflows (x >>= fun a => .ok (f a)) ↔ Overflows x := by
  simp [overflows_bind_iff, not_overflows_ok]

theorem overflows_member_bind_iff {key : String} {members : List (Text × α)}
    {f : α → Except LoadError β} :
    Overflows (member key members >>= f) ↔
      ∃ a, members.lookup (.whole key) = some a ∧ Overflows (f a) := by
  unfold member
  cases members.lookup (.whole key) with
  | none =>
    have hbind : (Except.error (.missingMember key) >>= f) = .error (.missingMember key) := rfl
    simp [hbind, overflows_error_iff, LoadError.isOverflow]
  | some a =>
    have hbind : (Except.ok a >>= f) = f a := rfl
    simp [hbind]

theorem kindNamed_ok_iff {v : Value} {kind : TokenKind} :
    kindNamed v = .ok kind ↔ v = .string kind.name := by
  constructor
  · intro h
    unfold kindNamed at h
    split at h
    · split at h
      · next hname =>
        cases h
        rw [TokenKind.name_of_ofName? hname]
      · cases h
    · cases h
  · rintro rfl
    unfold kindNamed
    simp only [TokenKind.ofName?_name]

theorem not_overflows_kindNamed (v : Value) : ¬ Overflows (kindNamed v) := by
  unfold kindNamed
  split
  · split
    · exact not_overflows_ok _
    · nofun
  · rw [overflows_error_iff]
    split <;> nofun

theorem overflows_kindNamed_bind_iff {v : Value} {f : TokenKind → Except LoadError β} :
    Overflows (kindNamed v >>= f) ↔
      ∃ kind : TokenKind, v = .string kind.name ∧ Overflows (f kind) := by
  rw [overflows_bind_iff, or_iff_right (not_overflows_kindNamed v)]
  simp only [kindNamed_ok_iff]

theorem overflows_badLine_iff (x : Except Number.WholeError ℤ) :
    Overflows (x.mapError .badLine) ↔ x = .error .infinite := by
  match x with
  | .ok n => exact iff_of_false (not_overflows_ok n) nofun
  | .error .infinite => exact iff_of_true ⟨.badLine .infinite, rfl, rfl⟩ rfl
  | .error (.notANumeral _) | .error (.tooManyDigits _) | .error .notANumber =>
    exact iff_of_false nofun nofun

theorem overflows_lineNumber_iff (v : Value) :
    Overflows (lineNumber v) ↔
      ∃ x, v = .number x ∧ Number.magnitude x = Number.infinityMagnitude := by
  unfold lineNumber
  split
  · simp [not_overflows_ok]
  · simp [not_overflows_ok]
  · next x => simp [overflows_badLine_iff, Number.wholeOfFloat_infinite_iff]
  · next s => simp [overflows_badLine_iff, Number.wholeOfText_ne_infinite]
  · next hnumber _ =>
    rw [overflows_error_iff]
    constructor
    · nofun
    · rintro ⟨x, rfl, -⟩
      exact (hnumber x rfl).elim

theorem overflows_tokenOfMembers_iff (members : List (Text × Value)) :
    Overflows (tokenOfMembers members) ↔ ∃ (kind : TokenKind) (lexeme : Value) (x : Float),
      members.lookup (.whole "type") = some (.string kind.name) ∧
      members.lookup (.whole "lexeme") = some lexeme ∧
      members.lookup (.whole "line") = some (.number x) ∧
      Number.magnitude x = Number.infinityMagnitude := by
  unfold tokenOfMembers
  simp only [overflows_member_bind_iff, overflows_kindNamed_bind_iff, overflows_bind_ok_iff,
    overflows_lineNumber_iff]
  constructor
  · rintro ⟨_, htype, kind, rfl, lexeme, hlexeme, _, hline, x, rfl, hx⟩
    exact ⟨kind, lexeme, x, htype, hlexeme, hline, hx⟩
  · rintro ⟨kind, lexeme, x, htype, hlexeme, hline, hx⟩
    exact ⟨_, htype, kind, rfl, lexeme, hlexeme, _, hline, x, rfl, hx⟩

theorem partOf_partsOf (key : String) (members : List (Text × Value)) :
    partOf key (partsOf members) = (do (← member key members).ofObject) := by
  unfold partOf member
  rw [lookup_partsOf]
  cases members.lookup (.whole key) <;> rfl

theorem exists_className {type : Option Value} {parts : List (Text × Part)}
    (h : Overflows (nodeOfParts (type.getD .nil) parts)) :
    ∃ className : String, type = some (.string className) := by
  match type with
  | some (.string (.whole className)) => exact ⟨className, rfl⟩
  | some (.string (.ragged _)) | none | some .nil | some (.bool _) | some (.number _)
  | some (.integer _) | some (.noNumber _) | some (.list _) | some (.dict _) | some (.token ..) | some (.node _) => nomatch h

/-- There is a bad item behind good ones only. -/
def FirstFails (good bad : α → Prop) : List α → Prop
  | [] => False
  | a :: as => bad a ∨ good a ∧ FirstFails good bad as

theorem firstFails_iff {good bad : α → Prop} {as : List α} :
    FirstFails good bad as ↔
      ∃ before a after, as = before ++ a :: after ∧ (∀ b ∈ before, good b) ∧ bad a := by
  constructor
  · intro h
    induction as with
    | nil => exact h.elim
    | cons a as ih =>
      obtain ha | ⟨ha, hlater⟩ := h
      · exact ⟨[], a, as, rfl, nofun, ha⟩
      · obtain ⟨before, b, after, rfl, hbefore, hb⟩ := ih hlater
        exact ⟨a :: before, b, after, rfl, List.forall_mem_cons.mpr ⟨ha, hbefore⟩, hb⟩
  · rintro ⟨before, a, after, rfl, hbefore, ha⟩
    induction before with
    | nil => exact .inl ha
    | cons b before ih =>
      obtain ⟨hb, hbefore⟩ := List.forall_mem_cons.mp hbefore
      exact .inr ⟨hb, ih hbefore⟩

theorem overflows_ofObjects_iff (os : List Value) :
    Overflows (ofObjects os) ↔ FirstFails Loadable (fun o => Overflows o.ofObject) os := by
  induction os with
  | nil => exact iff_of_false (not_overflows_ok _) id
  | cons o os ih =>
    rw [ofObjects, overflows_bind_iff, FirstFails, ← ih, Loadable, ← exists_and_right]
    simp only [overflows_bind_ok_iff]

section

variable {members : List (Text × Value)}

/-- Of some parts of a node, in this order, one breaks off and those in front of it are loaded. -/
def PartsOverflow (members : List (Text × Value)) : List String → Prop :=
  FirstFails (fun name => ∃ u, members.lookup (.whole name) = some u ∧ u.Loadable)
    fun name => ∃ o, members.lookup (.whole name) = some o ∧ Overflows o.ofObject

theorem overflows_none (v : Value) :
    Overflows (.ok v : Except LoadError Value) ↔ PartsOverflow members [] :=
  iff_of_false (not_overflows_ok v) id

theorem overflows_part {key : String} {keys : List String} {f : Value → Except LoadError Value}
    (hf : ∀ v, Overflows (f v) ↔ PartsOverflow members keys) :
    Overflows (partOf key (partsOf members) >>= f) ↔ PartsOverflow members (key :: keys) := by
  rw [overflows_bind_iff, partOf_partsOf, overflows_member_bind_iff]
  change _ ↔ _ ∨ _ ∧ PartsOverflow members keys
  apply or_congr_right
  simp only [hf, exists_and_right]
  apply and_congr_left'
  unfold member
  cases members.lookup (.whole key) with
  | none => simp [bind, Except.bind]
  | some u => simp [bind, Except.bind, Loadable]

theorem overflows_initializer :
    Overflows ((((partsOf members).lookup (.whole "initializer")).map (·.tree)).getD (.ok .nil)) ↔
      PartsOverflow members ["initializer"] := by
  rw [lookup_partsOf]
  unfold PartsOverflow FirstFails
  cases members.lookup (.whole "initializer") with
  | none => simp [not_overflows_ok, FirstFails]
  | some o => simp [FirstFails]

theorem overflows_block :
    Overflows (nodeOfParts (.string "Block") (partsOf members)) ↔
      ∃ o, members.lookup (.whole "statements") = some o ∧ Overflows o.itemsOfObject := by
  refine overflows_member_bind_iff.trans ?_
  rw [lookup_partsOf]
  simp [overflows_bind_ok_iff]

/-- A node other than a block breaks off on the first of its parts that is not loaded. -/
theorem overflows_nodeOfParts {className : String} (hblock : className ≠ "Block") :
    Overflows (nodeOfParts (.string className) (partsOf members)) ↔
      PartsOverflow members (partNames className) := by
  unfold partNames
  split
  · exact overflows_part fun _ => overflows_none _
  · exact overflows_part fun _ => overflows_none _
  · exact overflows_part fun _ => overflows_none _
  · exact overflows_part fun _ => overflows_none _
  · exact overflows_part fun _ => overflows_part fun _ => overflows_none _
  · exact overflows_part fun _ => overflows_part fun _ => overflows_part fun _ => overflows_none _
  · exact overflows_part fun _ => overflows_none _
  · exact overflows_part fun _ => overflows_part fun _ => overflows_none _
  · exact overflows_part fun _ => overflows_bind_ok_iff.trans overflows_initializer
  · have hunknown : nodeOfParts (.string className) (partsOf members) =
        .error (.unknownNode (.string className)) := by
      unfold nodeOfParts
      split <;> simp_all
    have hreported : ¬ (LoadError.unknownNode (.string className)).isOverflow := by
      simp [LoadError.isOverflow]
    rw [hunknown, overflows_error_iff]
    exact iff_of_false hreported id

end

theorem overflows_itemsOfObject_iff (o : Value) :
    Overflows o.itemsOfObject ↔ ∃ before bad after, o = .list (before ++ bad :: after) ∧
      (∀ u ∈ before, u.Loadable) ∧ Overflows bad.ofObject := by
  cases o with
  | list items =>
    rw [itemsOfObject, overflows_ofObjects_iff, firstFails_iff]
    simp only [list.injEq]
  | string | dict => simp [itemsOfObject, not_overflows_ok]
  | _ => simp [itemsOfObject, overflows_error_iff, LoadError.isOverflow]

theorem Oversized.overflows {o : Value} (h : Oversized o) : Overflows o.ofObject := by
  cases h with
  | @integer n hn =>
    rw [← Number.ofInt?_eq_none_iff] at hn
    rw [ofObject, hn]
    exact ⟨.tooLarge, rfl, rfl⟩
  | @token members kind lexeme x htoken hkind hlexeme hline hx =>
    rw [ofObject, htoken]
    exact (overflows_tokenOfMembers_iff members).mpr ⟨kind, lexeme, x, hkind, hlexeme, hline, hx⟩

theorem BreaksOff.overflows {o : Value} (h : o.BreaksOff) : Overflows o.ofObject := by
  induction h with
  | here h => exact h.overflows
  | @part members className key before after o hnode hclass hnames hbefore hpart _ ih =>
    have hblock : className ≠ "Block" := by
      rintro rfl
      cases before <;> cases hnames
    rw [ofObject, hclass]
    split
    · next htoken => exact absurd htoken hnode
    · apply (overflows_nodeOfParts hblock).mpr
      exact firstFails_iff.mpr ⟨before, key, after, hnames, hbefore, o, hpart, ih⟩
  | @statement members before after o hnode hclass hpart hbefore _ ih =>
    rw [ofObject, hclass]
    split
    · next htoken => exact absurd htoken hnode
    · apply overflows_block.mpr
      have hitems := (overflows_itemsOfObject_iff _).mpr ⟨before, o, after, rfl, hbefore, ih⟩
      exact ⟨_, hpart, hitems⟩

mutual

theorem breaksOff_of_overflows : (o : Value) → Overflows o.ofObject → o.BreaksOff
  | .nil, h | .bool _, h | .string _, h | .number _, h | .noNumber _, h =>
    (not_overflows_ok _ h).elim
  | .integer n, h => by
    apply BreaksOff.here
    apply Oversized.integer
    rw [← Number.ofInt?_eq_none_iff]
    cases hn : Number.ofInt? n with
    | none => rfl
    | some x =>
      rw [ofObject, hn] at h
      exact (not_overflows_ok _ h).elim
  | .dict members, h => by
    -- the statements of a block lie in a member, so a member is good for its items as well
    have hmembers := breaksOff_of_members members
    rw [ofObject] at h
    split at h
    · next htoken =>
      obtain ⟨kind, lexeme, x, hkind, hlexeme, hline, hx⟩ :=
        (overflows_tokenOfMembers_iff members).mp h
      exact .here (.token htoken hkind hlexeme hline hx)
    · next hnode =>
      obtain ⟨className, hclass⟩ := exists_className h
      rw [hclass] at h
      by_cases hblock : className = "Block"
      · rw [hblock] at h hclass
        obtain ⟨o, ho, hitems⟩ := overflows_block.mp h
        obtain ⟨before, bad, after, rfl, hbefore, hbad⟩ := (overflows_itemsOfObject_iff o).mp hitems
        have hbad := (hmembers _ (mem_of_lookup ho)).2 _ rfl bad (by simp) hbad
        exact .statement hnode hclass ho hbefore hbad
      · obtain ⟨before, key, after, hnames, hbefore, o, ho, hover⟩ :=
          firstFails_iff.mp ((overflows_nodeOfParts hblock).mp h)
        have ho' := (hmembers _ (mem_of_lookup ho)).1 hover
        exact .part hnode hclass hnames hbefore ho ho'
  | .list _, h | .token .., h | .node _, h => nomatch h

theorem breaksOff_of_list : (os : List Value) → ∀ o ∈ os, Overflows o.ofObject → o.BreaksOff
  | [] => nofun
  | o :: os => List.forall_mem_cons.mpr ⟨breaksOff_of_overflows o, breaksOff_of_list os⟩

theorem breaksOff_of_items : (o : Value) → ∀ items, o = .list items → ∀ u ∈ items,
    Overflows u.ofObject → u.BreaksOff
  | .list items, _, rfl => breaksOff_of_list items

theorem breaksOff_of_members : (members : List (Text × Value)) → ∀ m ∈ members,
    (Overflows m.2.ofObject → m.2.BreaksOff) ∧ ∀ items, m.2 = .list items → ∀ u ∈ items,
      Overflows u.ofObject → u.BreaksOff
  | [] => nofun
  | (_, v) :: rest => List.forall_mem_cons.mpr
    ⟨⟨breaksOff_of_overflows v, breaksOff_of_items v⟩, breaksOff_of_members rest⟩

end

theorem overflows_ofObject_iff (o : Value) : Overflows o.ofObject ↔ o.BreaksOff :=
  ⟨breaksOff_of_overflows o, BreaksOff.overflows⟩

theorem overflows_programOfObject_iff (o : Value) :
    Overflows o.programOfObject ↔ o.ProgramBreaksOff := by
  unfold programOfObject
  split
  · next members =>
    split
    · next htype =>
      simp only [overflows_member_bind_iff, overflows_itemsOfObject_iff, overflows_ofObject_iff]
      constructor
      · rintro ⟨_, hbody, before, bad, after, rfl, hbefore, hbad⟩
        exact ⟨members, before, bad, after, rfl, htype, hbody, hbefore, hbad⟩
      · rintro ⟨_, before, bad, after, ⟨⟩, -, hbody, hbefore, hbad⟩
        exact ⟨_, hbody, before, bad, after, rfl, hbefore, hbad⟩
    · next htype =>
      refine iff_of_false nofun ?_
      rintro ⟨_, _, _, _, ⟨⟩, hprogram, -⟩
      exact htype hprogram
  · next hdict =>
    refine iff_of_false nofun ?_
    rintro ⟨members, _, _, _, rfl, -⟩
    exact hdict members rfl

theorem BreaksOff.holds {o : Value} (h : o.BreaksOff) : o.Holds Oversized := by
  induction h with
  | here h => exact .here h
  | part _ _ _ _ hpart _ ih => exact .member (mem_of_lookup hpart) ih
  | statement _ _ hpart _ _ ih => exact .member (mem_of_lookup hpart) (.item (by simp) ih)

theorem ProgramBreaksOff.holds {o : Value} (h : o.ProgramBreaksOff) : o.Holds Oversized := by
  obtain ⟨members, before, bad, after, rfl, -, hbody, -, hbad⟩ := h
  exact .member (mem_of_lookup hbody) (.item (by simp) hbad.holds)

end Value

end LoxLang
