import LoxLang.Proofs.Run.Frame
import LoxLang.Scope.Forest

/-!
Which environment a name belongs to. From an environment a name means its binding in the nearest
environment around it that has one, its owner. Looking a name up, assigning to it and asking for it
all go to the owner, and a name that is given a value in one environment keeps its value in all
others.
-/
namespace LoxLang

namespace Scope

theorem isSome_find? (s : Scope) (name : Value) : (s.find? name).isSome = s.binds name := by
  rw [find?, binds, Option.isSome_map, Bool.eq_iff_iff]
  simp

theorem find?_insert_self (s : Scope) (name : Text) (v : Value) :
    (s.insert (.string name) v).find? (.string name) = some v := by
  obtain ⟨bindings⟩ := s
  change ((insertBinding (.string name) v bindings).find? _).map _ = _
  induction bindings with
  | nil => simp [insertBinding, Value.same]
  | cons entry rest ih =>
    unfold insertBinding
    split
    · next hsame => simp [hsame]
    · next hsame => simpa [hsame] using ih

theorem find?_insert_of_ne (s : Scope) {name other : Text} (h : other ≠ name) (v : Value) :
    (s.insert (.string name) v).find? (.string other) = s.find? (.string other) := by
  by_contra hne
  exact h (Value.string.inj (eq_of_find?_insert_ne hne))

end Scope

namespace Forest

/-- An environment and those around it, from the inside out. -/
def path (f : Forest) (e : Nat) : List Nat :=
  if e < f.environments.length then
    e :: match f.outer? e with
      | some ⟨outer, _⟩ => f.path outer
      | none => []
  else []
termination_by e

/-- The nearest environment around `e` that binds the name. -/
def owner? (f : Forest) (e : Nat) (name : Text) : Option Nat :=
  (f.path e).find? fun i => (f.scope i).binds (.string name)

variable {f : Forest}

theorem scope_of_le {e : Nat} (h : f.environments.length ≤ e) : f.scope e = {} := by
  rw [scope, List.getElem?_eq_none h]
  rfl

theorem lt_of_binds {e : Nat} {name : Value} (h : (f.scope e).binds name) :
    e < f.environments.length := by
  by_contra hle
  rw [scope_of_le (Nat.le_of_not_lt hle)] at h
  cases h

theorem lt_of_outer? {e : Nat} {outer : { i // i < e }} (h : f.outer? e = some outer) :
    e < f.environments.length := by
  by_contra hle
  rw [outer?, List.getElem?_eq_none (Nat.le_of_not_lt hle)] at h
  cases h

section

variable {e : Nat} {name : Text}

theorem owner?_of_binds (h : (f.scope e).binds (.string name)) : f.owner? e name = some e := by
  rw [owner?, path, if_pos (lt_of_binds h), List.find?_cons, h]

theorem owner?_of_outer (h : ¬ (f.scope e).binds (.string name)) {outer : { i // i < e }}
    (houter : f.outer? e = some outer) : f.owner? e name = f.owner? outer name := by
  have hfalse : (f.scope e).binds (.string name) = false := Bool.eq_false_iff.mpr h
  rw [owner?, path, if_pos (lt_of_outer? houter), List.find?_cons, hfalse, houter]
  rfl

theorem owner?_of_none (h : ¬ (f.scope e).binds (.string name)) (houter : f.outer? e = none) :
    f.owner? e name = none := by
  have hfalse : (f.scope e).binds (.string name) = false := Bool.eq_false_iff.mpr h
  rw [owner?, path, houter]
  split
  · rw [List.find?_cons, hfalse]
    rfl
  · rfl

end

/-- Induction along the way that a name is looked for, which ends at its first binding or outside of
all environments. -/
theorem outward {motive : Nat → Prop} (f : Forest) (name : Text)
    (bound : ∀ e, (f.scope e).binds (.string name) → motive e)
    (outer : ∀ e (outer : { i // i < e }), ¬ (f.scope e).binds (.string name) →
      f.outer? e = some outer → motive outer → motive e)
    (unbound : ∀ e, ¬ (f.scope e).binds (.string name) → f.outer? e = none → motive e) (e : Nat) :
    motive e := by
  induction e using Nat.strongRecOn with
  | ind e ih =>
    by_cases h : (f.scope e).binds (.string name)
    · exact bound e h
    · cases houter : f.outer? e with
      | none => exact unbound e h houter
      | some next => exact outer e next h houter (ih next next.2)

theorem contains_eq (f : Forest) (e : Nat) (name : Text) :
    f.contains e (.string name) = (f.owner? e name).isSome := by
  induction e using outward f name with
  | bound e h => rw [contains, if_pos h, owner?_of_binds h, Option.isSome_some]
  | outer e next h houter ih =>
    rw [contains, if_neg h, houter, owner?_of_outer h houter]
    exact ih
  | unbound e h houter =>
    rw [contains, if_neg h, houter, owner?_of_none h houter]
    rfl

theorem find?_eq (f : Forest) (e : Nat) (name : Text) :
    f.find? e (.string name) = (f.owner? e name).bind fun o => (f.scope o).find? (.string name) := by
  induction e using outward f name with
  | bound e h => rw [find?, if_pos h, owner?_of_binds h, Option.bind_some]
  | outer e next h houter ih =>
    rw [find?, if_neg h, houter, owner?_of_outer h houter]
    exact ih
  | unbound e h houter =>
    rw [find?, if_neg h, houter, owner?_of_none h houter]
    rfl

theorem assign?_eq (f : Forest) (e : Nat) (name : Text) (v : Value) :
    f.assign? e (.string name) v = (f.owner? e name).map fun o => f.define o (.string name) v := by
  induction e using outward f name with
  | bound e h => rw [assign?, if_pos h, owner?_of_binds h, Option.map_some]
  | outer e next h houter ih =>
    rw [assign?, if_neg h, houter, owner?_of_outer h houter]
    exact ih
  | unbound e h houter =>
    rw [assign?, if_neg h, houter, owner?_of_none h houter]
    rfl

theorem binds_of_owner? {e o : Nat} {name : Text} (h : f.owner? e name = some o) :
    (f.scope o).binds (.string name) := by
  rw [owner?, List.find?_eq_some_iff_append] at h
  exact h.1

theorem isSome_find?_eq (f : Forest) (e : Nat) (name : Text) :
    (f.find? e (.string name)).isSome = (f.owner? e name).isSome := by
  rw [find?_eq]
  cases h : f.owner? e name with
  | none => rfl
  | some o =>
    rw [Option.bind_some, Scope.isSome_find?, Option.isSome_some]
    exact binds_of_owner? h

/-! What a new environment changes: it has a path of its own. -/

section

variable (f) (enclosing : Option Nat)

theorem length_new : (f.new enclosing).environments.length = f.environments.length + 1 :=
  List.length_append

theorem scope_new (e : Nat) : (f.new enclosing).scope e = f.scope e := by
  by_cases h : e < f.environments.length
  · rw [scope, scope, new, List.getElem?_append_left h]
  · rw [scope_of_le (Nat.le_of_not_lt h), scope, new,
      List.getElem?_append_right (Nat.le_of_not_lt h), List.getElem?_singleton]
    split <;> rfl

theorem path_new_of_lt {e : Nat} (h : e < f.environments.length) :
    (f.new enclosing).path e = f.path e := by
  induction e using Nat.strongRecOn with
  | ind e ih =>
    have houter : (f.new enclosing).outer? e = f.outer? e := by
      rw [outer?, outer?, new, List.getElem?_append_left h]
    rw [path, path, length_new, houter, if_pos h, if_pos (Nat.lt_succ_of_lt h)]
    cases f.outer? e with
    | none => rfl
    | some next =>
      have hnext := ih next next.2 (Nat.lt_trans next.2 h)
      simp only [hnext]

theorem path_new_self (h : ∀ e, enclosing = some e → e < f.environments.length) :
    (f.new enclosing).path f.environments.length =
      f.environments.length :: enclosing.elim [] f.path := by
  have hlast : (f.new enclosing).environments[f.environments.length]? = some ⟨enclosing, {}⟩ :=
    List.getElem?_concat_length
  rw [path, length_new, if_pos (Nat.lt_succ_self _), outer?, hlast]
  cases enclosing with
  | none => rfl
  | some e =>
    have he := h e rfl
    simp only [Option.bind_some, dif_pos he, Option.elim_some, path_new_of_lt f (some e) he]

end

/-! What a definition changes: the scope of one environment. -/

section

variable (f) (e : Nat) (name : Text) (v : Value)

theorem getElem?_define (i : Nat) :
    (f.define e (.string name) v).environments[i]? = f.environments[i]?.map fun env =>
      if e = i then { env with scope := env.scope.insert (.string name) v } else env :=
  List.getElem?_modify ..

theorem scope_define_of_ne {i : Nat} (h : i ≠ e) :
    (f.define e (.string name) v).scope i = f.scope i := by
  rw [scope, scope, getElem?_define]
  simp [h.symm]

theorem scope_define_self (h : e < f.environments.length) :
    (f.define e (.string name) v).scope e = (f.scope e).insert (.string name) v := by
  rw [scope, scope, getElem?_define, List.getElem?_eq_getElem h]
  simp

theorem outer?_define (i : Nat) : (f.define e (.string name) v).outer? i = f.outer? i := by
  have henclosing : (f.define e (.string name) v).environments[i]?.bind (·.enclosing) =
      f.environments[i]?.bind (·.enclosing) := by
    rw [getElem?_define, Option.bind_map]
    congr 1
    funext env
    simp only [Function.comp_apply]
    split <;> rfl
  rw [outer?, outer?, henclosing]

theorem path_define (i : Nat) : (f.define e (.string name) v).path i = f.path i := by
  have hlength : (f.define e (.string name) v).environments.length = f.environments.length :=
    List.length_modify ..
  induction i using Nat.strongRecOn with
  | ind i ih =>
    rw [path, path, hlength, outer?_define]
    cases f.outer? i with
    | none => rfl
    | some next =>
      have hnext := ih next next.2
      simp only [hnext]

theorem define_of_le (h : f.environments.length ≤ e) : f.define e (.string name) v = f := by
  rw [define, List.modify_eq_self h]

theorem find?_scope_define_self (h : e < f.environments.length) :
    ((f.define e (.string name) v).scope e).find? (.string name) = some v := by
  rw [scope_define_self f e name v h, Scope.find?_insert_self]

theorem find?_scope_define_of_ne {i : Nat} {other : Text} (h : ¬ (i = e ∧ other = name)) :
    ((f.define e (.string name) v).scope i).find? (.string other) =
      (f.scope i).find? (.string other) := by
  by_cases hi : i = e
  · have hother : other ≠ name := fun hname => h ⟨hi, hname⟩
    subst hi
    by_cases hlt : i < f.environments.length
    · rw [scope_define_self f i name v hlt, Scope.find?_insert_of_ne _ hother]
    · rw [define_of_le f i name v (Nat.le_of_not_lt hlt)]
  · rw [scope_define_of_ne f e name v hi]

theorem binds_define_self (h : e < f.environments.length) :
    ((f.define e (.string name) v).scope e).binds (.string name) := by
  rw [← Scope.isSome_find?, find?_scope_define_self f e name v h, Option.isSome_some]

theorem binds_define_of_ne {i : Nat} {other : Text} (h : ¬ (i = e ∧ other = name)) :
    ((f.define e (.string name) v).scope i).binds (.string other) =
      (f.scope i).binds (.string other) := by
  rw [← Scope.isSome_find?, find?_scope_define_of_ne f e name v h, Scope.isSome_find?]

/-- A name that keeps its owner keeps its value, unless this is the binding that was written. -/
theorem find?_define_of_owner? {i : Nat} {other : Text}
    (howner : (f.define e (.string name) v).owner? i other = f.owner? i other)
    (hcell : ¬ (other = name ∧ f.owner? i other = some e)) :
    (f.define e (.string name) v).find? i (.string other) = f.find? i (.string other) := by
  rw [find?_eq, find?_eq, howner]
  cases ho : f.owner? i other with
  | none => rfl
  | some o =>
    have hother : ¬ (o = e ∧ other = name) := by
      rintro ⟨rfl, hname⟩
      exact hcell ⟨hname, ho⟩
    rw [Option.bind_some, Option.bind_some, find?_scope_define_of_ne f e name v hother]

end

/-! How an assignment changes what the names mean. -/

theorem owner?_define_of_binds {e : Nat} {name : Text} (h : (f.scope e).binds (.string name))
    (v : Value) (i : Nat) (other : Text) :
    (f.define e (.string name) v).owner? i other = f.owner? i other := by
  rw [owner?, owner?, path_define]
  congr 1
  funext j
  by_cases hj : j = e ∧ other = name
  · rw [hj.1, hj.2, h, binds_define_self f e name v (lt_of_binds h)]
  · exact binds_define_of_ne f e name v hj

theorem find?_define_of_binds {e : Nat} {name : Text} (h : (f.scope e).binds (.string name))
    (v : Value) (i : Nat) (other : Text) :
    (f.define e (.string name) v).find? i (.string other) =
      if other = name ∧ f.owner? i other = some e then some v else f.find? i (.string other) := by
  have howner := owner?_define_of_binds h v i other
  split
  · next hcell =>
    rw [find?_eq, howner, hcell.2, hcell.1, Option.bind_some,
      find?_scope_define_self f e name v (lt_of_binds h)]
  · next hcell => exact find?_define_of_owner? f e name v howner hcell

theorem find?_assign {e : Nat} {name : Text} {v : Value} {g : Forest}
    (h : f.assign? e (.string name) v = some g) (i : Nat) (other : Text) :
    g.find? i (.string other) =
      if other = name ∧ f.owner? i other = f.owner? e name then some v
      else f.find? i (.string other) := by
  rw [assign?_eq] at h
  cases howner : f.owner? e name with
  | none =>
    rw [howner] at h
    cases h
  | some o =>
    rw [howner, Option.map_some, Option.some.injEq] at h
    rw [← h, find?_define_of_binds (binds_of_owner? howner)]

/-! How a definition changes what the names mean. -/

/-- From `i` outward, `e` comes before any other environment that binds the name. -/
def Reaches (f : Forest) (i e : Nat) (name : Text) : Prop :=
  ∃ inner outer, f.path i = inner ++ e :: outer ∧ ∀ j ∈ inner, ¬ (f.scope j).binds (.string name)

theorem lt_of_mem_path {i e : Nat} (h : e ∈ f.path i) : e < f.environments.length := by
  induction i using Nat.strongRecOn with
  | ind i ih =>
    rw [path] at h
    split at h
    · next hi =>
      cases houter : f.outer? i with
      | none =>
        rw [houter, List.mem_singleton] at h
        omega
      | some next =>
        rw [houter, List.mem_cons] at h
        cases h with
        | inl h => omega
        | inr h => exact ih next next.2 h
    · cases h

theorem lt_of_reaches {i e : Nat} {name : Text} (h : f.Reaches i e name) :
    e < f.environments.length := by
  obtain ⟨inner, outer, hpath, _⟩ := h
  apply lt_of_mem_path
  rw [hpath]
  exact List.mem_append_cons_self

theorem reaches_of_owner? {i e : Nat} {name : Text} (h : f.owner? i name = some e) :
    f.Reaches i e name := by
  rw [owner?, List.find?_eq_some_iff_append] at h
  obtain ⟨_, inner, outer, hpath, hinner⟩ := h
  exact ⟨inner, outer, hpath, by simpa using hinner⟩

theorem owner?_define_of_reaches {i e : Nat} {name : Text} (h : f.Reaches i e name) (v : Value) :
    (f.define e (.string name) v).owner? i name = some e := by
  have he := lt_of_reaches h
  obtain ⟨inner, outer, hpath, hinner⟩ := h
  rw [owner?, path_define, hpath, List.find?_append]
  cases hfound : inner.find? fun j =>
      ((f.define e (.string name) v).scope j).binds (.string name) with
  | none => rw [List.find?_cons, binds_define_self f e name v he, Option.none_or]
  | some j =>
    have hbinds := List.find?_some hfound
    have hj : j = e := by
      by_contra hne
      rw [binds_define_of_ne f e name v fun hcell => hne hcell.1] at hbinds
      exact hinner j (List.mem_of_find?_eq_some hfound) hbinds
    rw [hj, Option.some_or]

theorem find?_define_of_reaches {i e : Nat} {name : Text} (h : f.Reaches i e name) (v : Value) :
    (f.define e (.string name) v).find? i (.string name) = some v := by
  rw [find?_eq, owner?_define_of_reaches h, Option.bind_some,
    find?_scope_define_self f e name v (lt_of_reaches h)]

theorem reaches_of_mem {i e : Nat} {name : Text} {inner outer : List Nat}
    (hpath : f.path i = inner ++ outer) (hinner : ∀ j ∈ inner, ¬ (f.scope j).binds (.string name))
    (he : e ∈ inner) : f.Reaches i e name := by
  obtain ⟨before, after, hsplit⟩ := List.append_of_mem he
  have hbefore : ∀ j ∈ before, ¬ (f.scope j).binds (.string name) := by
    intro j hj
    apply hinner j
    rw [hsplit]
    exact List.mem_append_left _ hj
  exact ⟨before, after ++ outer, by simp [hpath, hsplit], hbefore⟩

/-- Where the owner of a name comes first, a definition further out is not seen. -/
theorem owner?_define_of_not_reaches {i e : Nat} {name other : Text}
    (h : ¬ (other = name ∧ f.Reaches i e name)) (v : Value) :
    (f.define e (.string name) v).owner? i other = f.owner? i other := by
  have hinner : ∀ inner outer, f.path i = inner ++ outer →
      (∀ j ∈ inner, ¬ (f.scope j).binds (.string other)) →
      ∀ j ∈ inner, ¬ ((f.define e (.string name) v).scope j).binds (.string other) := by
    intro inner outer hpath hfree j hj
    have hcell : ¬ (j = e ∧ other = name) := by
      rintro ⟨rfl, rfl⟩
      exact h ⟨rfl, reaches_of_mem hpath hfree hj⟩
    rw [binds_define_of_ne f e name v hcell]
    exact hfree j hj
  cases howner : f.owner? i other with
  | none =>
    rw [owner?, List.find?_eq_none] at howner
    rw [owner?, path_define, List.find?_eq_none]
    exact hinner (f.path i) [] (List.append_nil _).symm howner
  | some o =>
    obtain ⟨hbinds, inner, outer, hpath, hfree⟩ := List.find?_eq_some_iff_append.mp howner
    have hcell : ¬ (o = e ∧ other = name) := by
      rintro ⟨rfl, rfl⟩
      exact h ⟨rfl, inner, outer, hpath, by simpa using hfree⟩
    rw [owner?, path_define, List.find?_eq_some_iff_append, binds_define_of_ne f e name v hcell]
    have hfree' := hinner inner (o :: outer) hpath (by simpa using hfree)
    exact ⟨hbinds, inner, outer, hpath, by simpa using hfree'⟩

theorem find?_define_of_not_reaches {i e : Nat} {name other : Text}
    (h : ¬ (other = name ∧ f.Reaches i e name)) (v : Value) :
    (f.define e (.string name) v).find? i (.string other) = f.find? i (.string other) := by
  apply find?_define_of_owner? f e name v (owner?_define_of_not_reaches h v)
  rintro ⟨rfl, howner⟩
  exact h ⟨rfl, reaches_of_owner? howner⟩

/-! What happened to the environments. -/

/-- One operation on the environments. -/
inductive Step where
  | new (enclosing : Option Nat)
  | define (e : Nat) (name : Text) (v : Value)
  | assign (e : Nat) (name : Text) (v : Value)
  | get (e : Nat) (name : Text)
  | contains (e : Nat) (name : Text)

/-- A binding was given a value. -/
structure Write where
  environment : Nat
  name : Text
  value : Value

namespace Step

def apply (f : Forest) : Step → Forest
  | new enclosing => f.new enclosing
  | define e name v => f.define e (.string name) v
  | assign e name v => (f.assign? e (.string name) v).getD f
  | get _ _ => f
  | contains _ _ => f

/-- The name is looked up or assigned to, and means nothing. -/
def Fails (f : Forest) : Step → Prop
  | assign e name v => f.assign? e (.string name) v = none
  | get e name => f.find? e (.string name) = none
  | _ => False

/-- What a step writes: a definition where it is made, an assignment at the owner of the name. -/
def write? (f : Forest) : Step → Option Write
  | define e name v => if e < f.environments.length then some ⟨e, name, v⟩ else none
  | assign e name v => (f.owner? e name).map fun o => ⟨o, name, v⟩
  | _ => none

end Step

/-- The environments after the steps. -/
def after (f : Forest) (steps : List Step) : Forest :=
  steps.foldl Step.apply f

/-- What the steps write, in their order. -/
def writes (f : Forest) : List Step → List Write
  | [] => []
  | step :: rest => (step.write? f).toList ++ writes (step.apply f) rest

/-- The last value that was written to a name in an environment. -/
def latest? (ws : List Write) (e : Nat) (name : Text) : Option Value :=
  (ws.reverse.find? fun w => w.environment = e ∧ w.name = name).map (·.value)

/-- Every binding has the value that was last written to it. -/
def Recorded (ws : List Write) (f : Forest) : Prop :=
  ∀ e name, (f.scope e).find? (.string name) = latest? ws e name

theorem latest?_concat (ws : List Write) (w : Write) (e : Nat) (name : Text) :
    latest? (ws ++ [w]) e name =
      if w.environment = e ∧ w.name = name then some w.value else latest? ws e name := by
  rw [latest?, List.reverse_concat, List.find?_cons]
  split
  · next hcell => rw [if_pos (of_decide_eq_true hcell), Option.map_some]
  · next hcell => rw [if_neg (of_decide_eq_false hcell), latest?]

variable {ws : List Write}

theorem Recorded.define (h : Recorded ws f) {e : Nat} (he : e < f.environments.length)
    (name : Text) (v : Value) :
    Recorded (ws ++ [⟨e, name, v⟩]) (f.define e (.string name) v) := by
  intro i other
  rw [latest?_concat]
  split
  · next hcell =>
    rw [← hcell.1, ← hcell.2]
    exact find?_scope_define_self f e name v he
  · next hcell =>
    have hother : ¬ (i = e ∧ other = name) := fun hc => hcell ⟨hc.1.symm, hc.2.symm⟩
    rw [find?_scope_define_of_ne f e name v hother]
    exact h i other

theorem Recorded.apply (h : Recorded ws f) (step : Step) :
    Recorded (ws ++ (step.write? f).toList) (step.apply f) := by
  have hsilent : Recorded (ws ++ []) f := by rwa [List.append_nil]
  cases step with
  | new enclosing =>
    intro e name
    rw [Step.apply, scope_new]
    exact hsilent e name
  | define e name v =>
    by_cases he : e < f.environments.length
    · rw [Step.write?, if_pos he]
      exact h.define he name v
    · rw [Step.write?, if_neg he, Step.apply, define_of_le f e name v (Nat.le_of_not_lt he)]
      exact hsilent
  | assign e name v =>
    rw [Step.write?, Step.apply, assign?_eq]
    cases howner : f.owner? e name with
    | none => exact hsilent
    | some o => exact h.define (lt_of_binds (binds_of_owner? howner)) name v
  | get e name => exact hsilent
  | contains e name => exact hsilent

theorem Recorded.after (h : Recorded ws f) (steps : List Step) :
    Recorded (ws ++ writes f steps) (f.after steps) := by
  induction steps generalizing ws f with
  | nil =>
    rw [writes, List.append_nil]
    exact h
  | cons step rest ih =>
    have hrest := ih (h.apply step)
    rw [List.append_assoc] at hrest
    exact hrest

theorem recorded_writes (steps : List Step) : Recorded (writes {} steps) (after {} steps) := by
  have hempty : Recorded [] {} := fun _ _ => rfl
  exact hempty.after steps

theorem apply_of_fails {step : Step} (h : step.Fails f) : step.apply f = f := by
  cases step with
  | assign e name v =>
    rw [Step.Fails] at h
    rw [Step.apply, h, Option.getD_none]
  | get e name => rfl
  | _ => cases h

/-- Each operation is about one binding, that of the owner of its name. A name is bound, can be
looked up and can be assigned to where it has an owner, and its value is the last one that was
written there. An assignment is seen from where the name has the same owner and from nowhere else, a
definition from where it comes first. A new environment is searched before the one around it and
changes no other, and an operation that fails changes nothing. -/
theorem operations_meet_owner (f : Forest) :
    (∀ e name, (f.contains e (.string name) ↔ ∃ o, f.owner? e name = some o) ∧
      ((∃ v, f.find? e (.string name) = some v) ↔ ∃ o, f.owner? e name = some o) ∧
      ∀ v, (∃ g, f.assign? e (.string name) v = some g) ↔ ∃ o, f.owner? e name = some o) ∧
    (∀ steps, f = after {} steps → ∀ e name o, f.owner? e name = some o →
      ∃ v, latest? (writes {} steps) o name = some v ∧ f.find? e (.string name) = some v) ∧
    (∀ e name v g, f.assign? e (.string name) v = some g → ∀ i other,
      g.find? i (.string other) =
        if other = name ∧ f.owner? i other = f.owner? e name then some v
        else f.find? i (.string other)) ∧
    (∀ e name v i other,
      (other = name ∧ f.Reaches i e name →
        (f.define e (.string name) v).find? i (.string other) = some v) ∧
      (¬ (other = name ∧ f.Reaches i e name) →
        (f.define e (.string name) v).find? i (.string other) = f.find? i (.string other))) ∧
    (∀ enclosing, (∀ e, enclosing = some e → e < f.environments.length) →
      (f.new enclosing).path f.environments.length =
        f.environments.length :: enclosing.elim [] f.path ∧
      (∀ e, e < f.environments.length → (f.new enclosing).path e = f.path e) ∧
      ∀ e, (f.new enclosing).scope e = f.scope e) ∧
    ∀ step : Step, step.Fails f → step.apply f = f := by
  refine ⟨?_, ?_, ?_, ?_, ?_, fun step hfails => apply_of_fails hfails⟩
  · intro e name
    rw [← Option.isSome_iff_exists, ← Option.isSome_iff_exists, contains_eq, isSome_find?_eq]
    refine ⟨Iff.rfl, Iff.rfl, fun v => ?_⟩
    rw [← Option.isSome_iff_exists, assign?_eq, Option.isSome_map]
  · intro steps hsteps e name o howner
    have hlatest := recorded_writes steps o name
    rw [← hsteps] at hlatest
    have hsome : ((f.scope o).find? (.string name)).isSome := by
      rw [Scope.isSome_find?]
      exact binds_of_owner? howner
    obtain ⟨v, hv⟩ := Option.isSome_iff_exists.mp hsome
    rw [find?_eq, howner, Option.bind_some, ← hlatest]
    exact ⟨v, hv, hv⟩
  · intro e name v g hassign
    exact find?_assign hassign
  · intro e name v i other
    constructor
    · rintro ⟨rfl, hreaches⟩
      exact find?_define_of_reaches hreaches v
    · intro hhidden
      exact find?_define_of_not_reaches hhidden v
  · intro enclosing henclosing
    exact ⟨path_new_self f enclosing henclosing, fun e he => path_new_of_lt f enclosing he,
      scope_new f enclosing⟩

/-- Two environments in a third one, the first with its own binding of the name. -/
private def siblings : List Step :=
  [.new none, .new (some 0), .new (some 0), .define 0 "a" .nil, .define 1 "a" (.bool true)]

/-- What is assigned in one of two environments is seen from around them, and not from the other
one, which has its own binding. -/
theorem operations_meet_owner_siblings :
    latest? (writes {} siblings) 0 "a" = some .nil ∧
    (∃ g, (after {} siblings).assign? 2 (.string "a") (.bool false) = some g ∧
      g.find? 0 (.string "a") = some (.bool false) ∧ g.find? 1 (.string "a") = some (.bool true)) ∧
    (after {} siblings).Reaches 2 0 "a" ∧
    ((after {} siblings).define 0 (.string "a") (.string "x")).find? 2 (.string "a") =
      some (.string "x") ∧
    (Step.assign 2 "b" .nil).Fails (after {} siblings) ∧
    (Step.assign 2 "b" .nil).apply (after {} siblings) = after {} siblings := by
  obtain ⟨hmeans, hlatest, hassign, hdefine, -, hfails⟩ := operations_meet_owner (after {} siblings)
  have howner : (after {} siblings).owner? 2 "a" = some 0 := by decide +kernel
  have hreaches : (after {} siblings).Reaches 2 0 "a" :=
    ⟨[2], [], by decide +kernel, by decide +kernel⟩
  have hfailing : (Step.assign 2 "b" .nil).Fails (after {} siblings) := by
    have hnone : (after {} siblings).owner? 2 "b" = none := by decide +kernel
    rw [Step.Fails, assign?_eq, hnone]
    rfl
  refine ⟨?_, ?_, hreaches, (hdefine 0 "a" _ 2 "a").1 ⟨rfl, hreaches⟩, hfailing,
    hfails _ hfailing⟩
  · obtain ⟨v, hwritten, hfound⟩ := hlatest siblings rfl 2 "a" 0 howner
    have hnil : (after {} siblings).find? 2 (.string "a") = some .nil := by
      rw [find?_eq, howner]
      rfl
    rw [hwritten, ← hfound, hnil]
  · obtain ⟨g, hg⟩ := ((hmeans 2 "a").2.2 (.bool false)).mpr ⟨0, howner⟩
    have hseen := hassign 2 "a" (.bool false) g hg 0 "a"
    have hhidden := hassign 2 "a" (.bool false) g hg 1 "a"
    rw [if_pos (by decide +kernel)] at hseen
    rw [if_neg (by decide +kernel)] at hhidden
    have htrue : (after {} siblings).find? 1 (.string "a") = some (.bool true) := by
      have hself : (after {} siblings).owner? 1 "a" = some 1 := by decide +kernel
      rw [find?_eq, hself]
      rfl
    exact ⟨g, hg, hseen, hhidden.trans htrue⟩

end Forest

end LoxLang
