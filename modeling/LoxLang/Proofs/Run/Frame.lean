import Mathlib.Data.List.Forall2
import LoxLang.Proofs.Run.Resolution

/-!
What a run leaves alone.

Statements add names to the innermost scope only, those that they declare at their own level, and no
name is ever taken away. Values change only under the names that are assigned to, or declared in the
innermost scope. All of this holds wherever a run is stopped.
-/
namespace LoxLang

/-- The names that an expression assigns to, anywhere in it. -/
def Expr.targets : Expr → List String
  | .literal _ | .variable _ => []
  | .grouping e | .unary _ e => e.targets
  | .binary l _ r => l.targets ++ r.targets
  | .assign name e => e.targets ++ [name.lexeme]

mutual

/-- The names that a statement assigns to, anywhere in it. -/
def Stmt.targets : Stmt → List String
  | .expression e | .print e => e.targets
  | .var _ initializer => initializer.elim [] Expr.targets
  | .block body => Stmt.allTargets body

def Stmt.allTargets : List Stmt → List String
  | [] => []
  | s :: ss => s.targets ++ Stmt.allTargets ss

end

/-- The name that a statement declares at its own level, if it is a declaration. -/
def Stmt.declares : Stmt → List String
  | .var name _ => [name.lexeme]
  | .expression _ | .print _ | .block _ => []

theorem Value.same_string_iff {v : Value} {name : Text} :
    v.same (.string name) ↔ v = .string name := by
  cases v with
  | node n => cases n <;> simp [same]
  | _ => simp [same, sameAmount, amount?]

theorem Value.string_same_iff {v : Value} {name : Text} :
    (Value.string name).same v ↔ v = .string name := by
  cases v <;> simp [same, eq_comm]

namespace Scope

theorem binds_insert {s : Scope} {name : Text} {v x : Value} :
    (s.insert (.string name) v).binds x ↔ x = .string name ∨ s.binds x := by
  obtain ⟨bindings⟩ := s
  change (insertBinding (.string name) v bindings).any _ ↔ _ ∨ bindings.any _
  induction bindings with
  | nil => simp [insertBinding, Value.string_same_iff]
  | cons entry rest ih =>
    unfold insertBinding
    split
    · next hsame =>
      have hentry : entry.1 = .string name := Value.same_string_iff.mp hsame
      simp [hentry, Value.string_same_iff]
    · rw [List.any_cons, List.any_cons, Bool.or_eq_true, Bool.or_eq_true, ih]
      exact or_left_comm

/-- An insertion changes the value of one name only. -/
theorem eq_of_find?_insert_ne {s : Scope} {name : Text} {v x : Value}
    (h : (s.insert (.string name) v).find? x ≠ s.find? x) : x = .string name := by
  by_contra hne
  have hother : (Value.string name).same x = false :=
    Bool.eq_false_iff.mpr (Value.string_same_iff.not.mpr hne)
  obtain ⟨bindings⟩ := s
  apply h
  change ((insertBinding (.string name) v bindings).find? _).map _ = (bindings.find? _).map _
  clear h
  induction bindings with
  | nil => simp [insertBinding, hother]
  | cons entry rest ih =>
    obtain ⟨n, value⟩ := entry
    unfold insertBinding
    split
    · next hsame =>
      have hentry : n = .string name := Value.same_string_iff.mp hsame
      simp [hentry, hother]
    · rw [List.find?_cons, List.find?_cons]
      split
      · rfl
      · exact ih

/-- The second scope binds what the first one binds and no other names than those declared, and to
the same values but for the names declared or assigned to. -/
structure Evolves (declared assigned : List String) (s s' : Scope) : Prop where
  keeps : ∀ x, s.binds x → s'.binds x
  gains : ∀ x, s'.binds x → s.binds x ∨ ∃ name ∈ declared, x = .string name
  changes : ∀ x, s'.find? x ≠ s.find? x →
    ∃ name : String, x = .string name ∧ (name ∈ declared ∨ name ∈ assigned)

variable {declared declared' assigned assigned' : List String} {s s' s'' : Scope}

theorem Evolves.refl (s : Scope) : Evolves [] [] s s :=
  ⟨fun _ h => h, fun _ h => .inl h, fun _ h => absurd rfl h⟩

theorem Evolves.mono (h : Evolves declared assigned s s') (hd : declared ⊆ declared')
    (ha : assigned ⊆ assigned') : Evolves declared' assigned' s s' := by
  refine ⟨h.keeps, ?_, ?_⟩
  · intro x hx
    obtain hs | ⟨name, hname, rfl⟩ := h.gains x hx
    · exact .inl hs
    · exact .inr ⟨name, hd hname, rfl⟩
  · intro x hx
    obtain ⟨name, rfl, hname⟩ := h.changes x hx
    exact ⟨name, rfl, hname.imp (@hd name) (@ha name)⟩

theorem Evolves.trans (h : Evolves declared assigned s s') (h' : Evolves declared' assigned' s' s'') :
    Evolves (declared ++ declared') (assigned ++ assigned') s s'' := by
  refine ⟨fun x hx => h'.keeps x (h.keeps x hx), ?_, ?_⟩
  · intro x hx
    obtain hs | ⟨name, hname, rfl⟩ := h'.gains x hx
    · obtain hs | ⟨name, hname, rfl⟩ := h.gains x hs
      · exact .inl hs
      · exact .inr ⟨name, List.mem_append_left _ hname, rfl⟩
    · exact .inr ⟨name, List.mem_append_right _ hname, rfl⟩
  · intro x hx
    -- a value that the first run has left alone was changed by the second
    by_cases hfirst : s'.find? x = s.find? x
    · obtain ⟨name, rfl, hname⟩ := h'.changes x (hfirst ▸ hx)
      exact ⟨name, rfl, hname.imp (List.mem_append_right _) (List.mem_append_right _)⟩
    · obtain ⟨name, rfl, hname⟩ := h.changes x hfirst
      exact ⟨name, rfl, hname.imp (List.mem_append_left _) (List.mem_append_left _)⟩

theorem Evolves.binds_eq (h : Evolves [] assigned s s') (x : Value) : s'.binds x = s.binds x := by
  rw [Bool.eq_iff_iff]
  refine ⟨fun hx => ?_, h.keeps x⟩
  obtain hs | ⟨name, hname, -⟩ := h.gains x hx
  · exact hs
  · cases hname

theorem evolves_define (s : Scope) (name : String) (v : Value) :
    Evolves [name] [] s (s.insert (.string name) v) := by
  have hname : name ∈ [name] := List.mem_singleton_self name
  refine ⟨fun x hx => binds_insert.mpr (.inr hx), ?_, ?_⟩
  · exact fun x hx => (binds_insert.mp hx).symm.imp_right fun h => ⟨name, hname, h⟩
  · exact fun x hx => ⟨name, eq_of_find?_insert_ne hx, .inl hname⟩

theorem evolves_assign {name : String} (h : s.binds (.string name)) (v : Value) :
    Evolves [] [name] s (s.insert (.string name) v) := by
  refine ⟨fun x hx => binds_insert.mpr (.inr hx), ?_, ?_⟩
  · intro x hx
    refine .inl ((binds_insert.mp hx).elim ?_ id)
    rintro rfl
    exact h
  · exact fun x hx => ⟨name, eq_of_find?_insert_ne hx, .inr (List.mem_singleton_self name)⟩

end Scope

namespace Chain

/-- Scope by scope, the second chain has the names of the first, and under other names than those
assigned to it has the same values. -/
def Evolves (assigned : List String) : Chain → Chain → Prop :=
  List.Forall₂ (Scope.Evolves [] assigned)

variable {assigned assigned' : List String} {chain chain' chain'' : Chain}

theorem Evolves.refl (chain : Chain) : Evolves [] chain chain :=
  List.forall₂_same.mpr fun s _ => .refl s

theorem Evolves.mono (h : Evolves assigned chain chain') (ha : assigned ⊆ assigned') :
    Evolves assigned' chain chain' :=
  List.Forall₂.imp (fun _ _ hs => hs.mono (List.Subset.refl _) ha) h

theorem Evolves.trans (h : Evolves assigned chain chain') (h' : Evolves assigned' chain' chain'') :
    Evolves (assigned ++ assigned') chain chain'' := by
  induction h generalizing chain'' with
  | nil =>
    cases h'
    exact .nil
  | cons hs _ ih =>
    cases h' with
    | cons hs' houter => exact .cons (hs.trans hs') (ih houter)

theorem evolves_assign? {name : String} {v : Value} (h : chain.assign? (.string name) v = some chain') :
    Evolves [name] chain chain' := by
  induction chain generalizing chain' with
  | nil => cases h
  | cons s outer ih =>
    unfold assign? at h
    split at h
    · next hbinds =>
      cases h
      exact .cons (Scope.evolves_assign hbinds v) ((Evolves.refl outer).mono (List.nil_subset _))
    · obtain ⟨outer', h', rfl⟩ := Option.map_eq_some_iff.mp h
      exact .cons ((Scope.Evolves.refl s).mono (List.nil_subset _) (List.nil_subset _)) (ih h')

end Chain

end LoxLang

namespace LoxLang.Run

variable {α β : Type} {declared declared' targets targets' : List String}

def Event.target? : Event → Option String
  | .assigned (.string (.whole name)) _ => some name
  | _ => none

/-- The names that events tell of as assigned to. -/
def assignedIn (events : Array Event) : List String :=
  events.toList.filterMap Event.target?

theorem assignedIn_append (events events' : Array Event) :
    assignedIn (events ++ events') = assignedIn events ++ assignedIn events' := by
  simp [assignedIn]

/-- From any scopes the computation leaves as many. It gives new values to the names that its events
tell of, and to one that they do not tell of at most if the trace breaks it off; all of them are
among the targets. It declares names in the innermost scope only, all of them if it has a result. -/
def Confined (declared targets : List String) (m : Exec α) : Prop :=
  ∀ (scope : Scope) (outer : Chain) (events : Array Event) (trace : Trace),
    ∃ result scope' outer' added trace' untold,
      m ⟨scope :: outer, events, trace⟩ = (result, ⟨scope' :: outer', events ++ added, trace'⟩) ∧
      (untold ≠ [] → BrokenOff result) ∧ assignedIn added ++ untold ⊆ targets ∧
      scope.Evolves declared (assignedIn added ++ untold) scope' ∧
      Chain.Evolves (assignedIn added ++ untold) outer outer' ∧
      ∀ a, result = .ok a → ∀ name ∈ declared, scope'.binds (.string name)

theorem Confined.mono {m : Exec α} (h : Confined declared targets m) (ht : targets ⊆ targets') :
    Confined declared targets' m := by
  intro scope outer events trace
  obtain ⟨result, scope', outer', added, trace', untold, hrun, huntold, htargets, hrest⟩ :=
    h scope outer events trace
  exact ⟨result, scope', outer', added, trace', untold, hrun, huntold,
    List.Subset.trans htargets ht, hrest⟩

/-- A computation that leaves the scopes as they are. -/
theorem confined_of_idle {m : Exec α}
    (h : ∀ w, ∃ result added trace, m w = (result, ⟨w.chain, w.events ++ added, trace⟩) ∧
      assignedIn added = []) :
    Confined [] [] m := by
  intro scope outer events trace
  obtain ⟨result, added, trace', hrun, hadded⟩ := h ⟨scope :: outer, events, trace⟩
  refine ⟨result, scope, outer, added, trace', [], hrun, by simp, ?_, ?_, ?_, by simp⟩
  · rw [hadded]
    exact List.nil_subset _
  · rw [hadded]
    exact .refl scope
  · rw [hadded]
    exact .refl outer

theorem confined_ofExcept (x : Except Fault α) : Confined [] [] (ofExcept x) :=
  confined_of_idle fun w => ⟨x, #[], w.trace, by rw [Array.append_empty]; rfl, rfl⟩

theorem confined_pure (a : α) : Confined [] [] (pure a : Exec α) :=
  confined_ofExcept (.ok a)

theorem confined_happen {e : Event} (h : e.target? = none) : Confined [] [] (happen e) := by
  refine confined_of_idle fun w => ?_
  rw [happen_apply]
  cases w.trace.write e with
  | ok trace => exact ⟨.ok (), #[e], trace, by rw [Array.append_singleton], by simp [assignedIn, h]⟩
  | error line => exact ⟨_, #[], w.trace, by rw [Array.append_empty], rfl⟩

theorem confined_lookup (t : Token) : Confined [] [] (lookup t.toValue) := by
  refine confined_of_idle fun w => ?_
  rw [lookup_apply]
  cases w.chain.find? (.string t.lexeme) with
  | some v => exact ⟨.ok v, #[], w.trace, by rw [Array.append_empty], rfl⟩
  | none => exact ⟨_, #[], w.trace, by rw [Array.append_empty], rfl⟩

theorem Confined.bind {m : Exec α} {f : α → Exec β} (hm : Confined declared targets m)
    (hf : ∀ a, Confined declared' targets' (f a)) :
    Confined (declared ++ declared') (targets ++ targets') (m >>= f) := by
  intro scope outer events trace
  obtain ⟨result, scope₁, outer₁, added₁, trace₁, untold₁, hrun₁, huntold₁, htargets₁, hscope₁,
    houter₁, hdeclared₁⟩ := hm scope outer events trace
  rw [bind_apply, hrun₁]
  cases result with
  | error fault =>
    -- the second computation does not start, so what it declares is allowed but not owed
    refine ⟨.error fault, scope₁, outer₁, added₁, trace₁, untold₁, rfl, ?_, ?_, ?_, houter₁, by simp⟩
    · intro h
      obtain ⟨line, hline⟩ := huntold₁ h
      cases hline
      exact ⟨line, rfl⟩
    · exact List.Subset.trans htargets₁ (List.subset_append_left _ _)
    · exact hscope₁.mono (List.subset_append_left _ _) (List.Subset.refl _)
  | ok a =>
    -- the events of a computation that has a result tell of all it has assigned
    obtain rfl : untold₁ = [] := by
      by_contra h
      obtain ⟨line, hline⟩ := huntold₁ h
      cases hline
    rw [List.append_nil] at htargets₁ hscope₁ houter₁
    obtain ⟨result, scope₂, outer₂, added₂, trace₂, untold₂, hrun₂, huntold₂, htargets₂, hscope₂,
      houter₂, hdeclared₂⟩ := hf a scope₁ outer₁ (events ++ added₁) trace₁
    refine ⟨result, scope₂, outer₂, added₁ ++ added₂, trace₂, untold₂, ?_, huntold₂, ?_, ?_, ?_, ?_⟩
    · rw [← Array.append_assoc]
      exact hrun₂
    · rw [assignedIn_append, List.append_assoc]
      exact List.append_subset.mpr ⟨List.subset_append_of_subset_left _ htargets₁,
        List.subset_append_of_subset_right _ htargets₂⟩
    · rw [assignedIn_append, List.append_assoc]
      exact hscope₁.trans hscope₂
    · rw [assignedIn_append, List.append_assoc]
      exact houter₁.trans houter₂
    · intro b hb name hname
      obtain hfirst | hsecond := List.mem_append.mp hname
      · exact hscope₂.keeps _ (hdeclared₁ a rfl name hfirst)
      · exact hdeclared₂ b hb name hsecond

theorem confined_assign (t : Token) (v : Value) : Confined [] [t.lexeme] (assign t.toValue v) := by
  intro scope outer events trace
  rw [assign_apply]
  cases hassign : Chain.assign? (.string t.lexeme) v (scope :: outer) with
  | some chain =>
    obtain ⟨scope', outer', hscope, houter, rfl⟩ :=
      List.forall₂_cons_left_iff.mp (Chain.evolves_assign? hassign)
    change ∃ result scope₁ outer₁ added trace₁ untold,
      happen (.assigned (.string t.lexeme) v) ⟨scope' :: outer', events, trace⟩ = _ ∧ _
    rw [happen_apply]
    -- the value is there before it is traced
    cases trace.write (.assigned (.string t.lexeme) v) with
    | ok trace' =>
      refine ⟨.ok (), scope', outer', #[.assigned (.string t.lexeme) v], trace', [], ?_, by simp,
        List.Subset.refl _, hscope, houter, by simp⟩
      rw [Array.append_singleton]
    | error line =>
      refine ⟨_, scope', outer', #[], trace, [t.lexeme], ?_, fun _ => ⟨line, rfl⟩,
        List.Subset.refl _, hscope, houter, by simp⟩
      rw [Array.append_empty]
  | none =>
    refine ⟨_, scope, outer, #[], trace, [], by rw [Array.append_empty], by simp, List.nil_subset _,
      .refl scope, .refl outer, by simp⟩

theorem confined_define (t : Token) (v : Value) : Confined [t.lexeme] [] (define t.toValue v) := by
  intro scope outer events trace
  have hdeclared : ∀ name ∈ [t.lexeme], (scope.insert (.string t.lexeme) v).binds (.string name) := by
    intro name hname
    rw [List.mem_singleton.mp hname]
    exact Scope.binds_insert.mpr (.inl rfl)
  rw [define_apply]
  change ∃ result scope' outer' added trace' untold, happen (.declared (.string t.lexeme) v)
    ⟨scope.insert (.string t.lexeme) v :: outer, events, trace⟩ = _ ∧ _
  rw [happen_apply]
  cases trace.write (.declared (.string t.lexeme) v) with
  | ok trace' =>
    refine ⟨.ok (), _, outer, #[.declared (.string t.lexeme) v], trace', [], ?_, by simp,
      List.nil_subset _, scope.evolves_define t.lexeme v, .refl outer, fun _ _ => hdeclared⟩
    rw [Array.append_singleton]
  | error line =>
    refine ⟨.error (.breakdown (.unwritable line)), _, outer, #[], trace, [], ?_, by simp,
      List.nil_subset _, scope.evolves_define t.lexeme v, .refl outer, fun _ _ => hdeclared⟩
    rw [Array.append_empty]

/-- What is declared in a new scope is gone with it. -/
theorem Confined.inNewScope {body : Exec Unit} (h : Confined declared targets body) :
    Confined [] targets (inNewScope body) := by
  intro scope outer events trace
  obtain ⟨result, inner, chain, added, trace', untold, hrun, huntold, htargets, -, hchain, -⟩ :=
    h {} (scope :: outer) events trace
  obtain ⟨scope', outer', hscope, houter, rfl⟩ := List.forall₂_cons_left_iff.mp hchain
  refine ⟨result, scope', outer', added, trace', untold, ?_, huntold, htargets, hscope, houter,
    by simp⟩
  rw [inNewScope_apply, hrun]
  rfl

theorem confined_evaluate (e : Expr) : Confined [] e.targets (evaluate e.toValue) := by
  induction e with
  | literal v => exact confined_pure v
  | grouping e ih => exact ih
  | unary operator e ih => exact (ih.bind fun _ => confined_ofExcept _).mono (by simp [Expr.targets])
  | binary l operator r ihl ihr =>
    exact (ihl.bind fun _ => ihr.bind fun _ => confined_ofExcept _).mono (by simp [Expr.targets])
  | «variable» name => exact confined_lookup name
  | assign name e ih =>
    exact (ih.bind fun v => (confined_assign name v).bind fun _ => confined_pure v).mono
      (by simp [Expr.targets])

theorem confined_initialValue (initializer : Option Expr) :
    Confined [] (initializer.elim [] Expr.targets)
      (initialValue (initializer.elim .nil Expr.toValue)) := by
  cases initializer with
  | none => exact confined_pure Value.nil
  | some e =>
    rw [Option.elim_some, Option.elim_some, initialValue_toValue]
    exact confined_evaluate e

mutual

theorem confined_execute : (s : Stmt) → Confined s.declares s.targets (execute s.toValue)
  | .expression e => ((confined_evaluate e).bind fun _ => confined_pure ()).mono (by simp [Stmt.targets])
  | .print e =>
    ((confined_evaluate e).bind fun v => confined_happen (e := .printed v) rfl).mono
      (by simp [Stmt.targets])
  | .var name initializer =>
    ((confined_initialValue initializer).bind fun v => confined_define name v).mono
      (by simp [Stmt.targets])
  | .block body =>
    ((confined_happen rfl).bind fun _ => (confined_executeAll body).bind fun _ =>
      confined_happen (e := .left) rfl).inNewScope.mono (by simp [Stmt.targets])

theorem confined_executeAll : (ss : List Stmt) →
    Confined (ss.flatMap Stmt.declares) (Stmt.allTargets ss) (executeAll (Stmt.toValues ss))
  | [] => confined_pure ()
  | s :: ss => (confined_execute s).bind fun _ => confined_executeAll ss

end

/-- A declaration whose initializer fails does what the initializer does and fails with it. -/
theorem execute_var_of_error {name : Token} {e : Expr} {w w' : World} {fault : Fault}
    (h : evaluate e.toValue w = (.error fault, w')) :
    execute (Stmt.var name (some e)).toValue w = (.error fault, w') := by
  change (initialValue e.toValue >>= fun v => define name.toValue v) w = _
  rw [bind_apply, initialValue_toValue, h]

/-- Statements run in the innermost scope of a chain, to their end or to a fault anywhere in them.
Every other scope has the names that it had. The innermost one has lost none and has got no others
than those that the statements declare at their own level, all of these at the end. Where a value
has changed its name is assigned to somewhere in the statements or, in the innermost scope, declared
at their own level.

A block leaves every scope with the names that it had. A declaration whose initializer fails leaves
the name it declares bound or not as it was, and to the same value unless the initializer came to
assign to that name: its events tell of that, but for an assignment that the trace breaks off at. -/
theorem execution_frame :
    (∀ (ss : List Stmt) (scope : Scope) (outer : Chain) (events : Array Event) (trace : Trace),
      ∃ result scope' outer' events' trace',
        executeAll (Stmt.toValues ss) ⟨scope :: outer, events, trace⟩ =
          (result, ⟨scope' :: outer', events', trace'⟩) ∧
        Chain.Evolves (Stmt.allTargets ss) outer outer' ∧
        scope.Evolves (ss.flatMap Stmt.declares) (Stmt.allTargets ss) scope' ∧
        (result = .ok () → ∀ x, scope'.binds x ↔
          scope.binds x ∨ ∃ name ∈ ss.flatMap Stmt.declares, x = .string name)) ∧
    (∀ (body : List Stmt) (scope : Scope) (outer : Chain) (events : Array Event) (trace : Trace),
      List.Forall₂ (fun s s' : Scope => ∀ x, s'.binds x = s.binds x) (scope :: outer)
        (execute (Stmt.block body).toValue ⟨scope :: outer, events, trace⟩).2.chain) ∧
    ∀ (name : Token) (e : Expr) (scope : Scope) (outer : Chain) (events : Array Event)
      (trace : Trace) (fault : Fault),
      (evaluate e.toValue ⟨scope :: outer, events, trace⟩).1 = .error fault →
      ∃ scope' outer' added trace' untold,
        execute (Stmt.var name (some e)).toValue ⟨scope :: outer, events, trace⟩ =
          (.error fault, ⟨scope' :: outer', events ++ added, trace'⟩) ∧
        scope'.binds (.string name.lexeme) = scope.binds (.string name.lexeme) ∧
        (scope'.find? (.string name.lexeme) ≠ scope.find? (.string name.lexeme) →
          name.lexeme ∈ assignedIn added ++ untold) ∧
        assignedIn added ++ untold ⊆ e.targets ∧
        (untold ≠ [] → ∃ line, fault = .breakdown (.unwritable line)) := by
  refine ⟨?_, ?_, ?_⟩
  · intro ss scope outer events trace
    obtain ⟨result, scope', outer', added, trace', untold, hrun, -, htargets, hscope, houter,
      hdeclared⟩ := confined_executeAll ss scope outer events trace
    refine ⟨result, scope', outer', _, trace', hrun, houter.mono htargets,
      hscope.mono (List.Subset.refl _) htargets, ?_⟩
    intro hresult x
    refine ⟨hscope.gains x, ?_⟩
    rintro (hx | ⟨name, hname, rfl⟩)
    · exact hscope.keeps x hx
    · exact hdeclared () hresult name hname
  · intro body scope outer events trace
    obtain ⟨result, scope', outer', added, trace', untold, hrun, -, -, hscope, houter, -⟩ :=
      confined_execute (.block body) scope outer events trace
    rw [hrun]
    exact .cons hscope.binds_eq (List.Forall₂.imp (fun _ _ h => h.binds_eq) houter)
  · intro name e scope outer events trace fault hfault
    obtain ⟨result, scope', outer', added, trace', untold, hrun, huntold, htargets, hscope, -, -⟩ :=
      confined_evaluate e scope outer events trace
    rw [hrun] at hfault
    cases hfault
    refine ⟨scope', outer', added, trace', untold, execute_var_of_error hrun, hscope.binds_eq _, ?_,
      htargets, ?_⟩
    · intro hchanged
      obtain ⟨_, ⟨⟩, hname | hname⟩ := hscope.changes _ hchanged
      · cases hname
      · exact hname
    · intro h
      obtain ⟨line, hline⟩ := huntold h
      exact ⟨line, Except.error.inj hline⟩

/-- The statements of `var b; { var c; b = true; }`. -/
private def declaring : List Stmt :=
  let b : Token := ⟨.identifier, "b", .nil, 1⟩
  [.var b none, .block [.var ⟨.identifier, "c", .nil, 1⟩ none,
    .expression (.assign b (.literal (.bool true)))]]

/-- The initializer of `var a = (a = true) - a;`. -/
private def failingInitializer : Expr :=
  let a : Token := ⟨.identifier, "a", .nil, 1⟩
  .binary (.grouping (.assign a (.literal (.bool true)))) ⟨.minus, "-", .nil, 1⟩ (.variable a)

/-- The first statements leave the name `b` only. The declaration of `a` fails but leaves a changed
value, which its initializer has assigned. -/
theorem execution_frame_failingInitializer :
    ((executeAll (Stmt.toValues declaring) ⟨[{}], #[], .start 0⟩).1 = .ok () ∧
      ∃ scope, (executeAll (Stmt.toValues declaring) ⟨[{}], #[], .start 0⟩).2.chain = [scope] ∧
        ∀ x, scope.binds x ↔ x = .string "b") ∧
    ∃ fault scope outer added trace,
      (evaluate failingInitializer.toValue ⟨[⟨[(.string "a", .nil)]⟩], #[], .start 0⟩).1 =
        .error fault ∧
      execute (Stmt.var ⟨.identifier, "a", .nil, 1⟩ (some failingInitializer)).toValue
        ⟨[⟨[(.string "a", .nil)]⟩], #[], .start 0⟩ =
          (.error fault, ⟨scope :: outer, #[] ++ added, trace⟩) ∧
      scope.find? (.string "a") = some (.bool true) ∧ "a" ∈ assignedIn added := by
  refine ⟨⟨rfl, ?_⟩, ?_⟩
  · obtain ⟨result, scope, outer, events, trace, hrun, houter, -, hnames⟩ :=
      execution_frame.1 declaring {} [] #[] (.start 0)
    cases houter
    have hresult : result = .ok () := (congrArg Prod.fst hrun).symm
    refine ⟨scope, congrArg (·.2.chain) hrun, fun x => ?_⟩
    simpa [declaring, Stmt.declares, Scope.binds] using hnames hresult x
  · obtain ⟨scope, outer, added, trace, untold, hrun, -, hassigned, -, huntold⟩ :=
      execution_frame.2.2 ⟨.identifier, "a", .nil, 1⟩ failingInitializer ⟨[(.string "a", .nil)]⟩ []
        #[] (.start 0) _ rfl
    obtain rfl : untold = [] := by
      by_contra h
      obtain ⟨line, hline⟩ := huntold h
      cases hline
    rw [List.append_nil] at hassigned
    have hscope : [⟨[(.string "a", .bool true)]⟩] = scope :: outer := congrArg (·.2.chain) hrun
    cases hscope
    have hchanged : some (Value.bool true) ≠ some .nil := by simp
    exact ⟨_, _, _, added, trace, rfl, hrun, rfl, hassigned hchanged⟩

end LoxLang.Run
