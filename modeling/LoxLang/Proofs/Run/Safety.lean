import LoxLang.Proofs.Grammar.WellFormed
import LoxLang.Proofs.Run.Report
import LoxLang.Proofs.Source.Segmentation

/-!
Runs of well-formed trees. They complete or stop with a runtime error, never on a part that does not
fit nor on a division, and all values that they leave behind are like those that they found and those
of the language. The trace can break them off only if it shows values and finds a ragged one.

The trees that a source text is taken for are well formed, so every source text can be run on values
of the language.
-/
namespace LoxLang

/-- A value of the language, or a ragged string. -/
def Value.IsLoxOrRagged (v : Value) : Prop :=
  v.isLox ∨ ∃ r, v = .string (.ragged r)

/-- A scope that binds names to values with a property only. -/
def Scope.Holds (P : Value → Prop) (s : Scope) : Prop :=
  ∀ b ∈ s.bindings, P b.2

def Chain.Holds (P : Value → Prop) (chain : Chain) : Prop :=
  ∀ s ∈ chain, s.Holds P

/-- A scope that binds names to values of the language only. -/
abbrev Scope.IsLox (s : Scope) : Prop :=
  s.Holds fun v => v.isLox

abbrev Chain.IsLox (chain : Chain) : Prop :=
  chain.Holds fun v => v.isLox

variable {P : Value → Prop}

theorem Scope.Holds.insert {s : Scope} (hs : s.Holds P) (name : Value) {v : Value} (hv : P v) :
    (s.insert name v).Holds P := by
  obtain ⟨bindings⟩ := s
  change ∀ b ∈ Scope.insertBinding name v bindings, _
  change ∀ b ∈ bindings, _ at hs
  induction bindings with
  | nil =>
    intro b hb
    rw [List.mem_singleton.mp hb]
    exact hv
  | cons entry rest ih =>
    obtain ⟨hentry, hrest⟩ := List.forall_mem_cons.mp hs
    unfold Scope.insertBinding
    split
    · exact List.forall_mem_cons.mpr ⟨hv, hrest⟩
    · exact List.forall_mem_cons.mpr ⟨hentry, ih hrest⟩

theorem Scope.Holds.find? {s : Scope} (hs : s.Holds P) {name v : Value}
    (h : s.find? name = some v) : P v := by
  obtain ⟨b, hb, rfl⟩ := Option.map_eq_some_iff.mp h
  exact hs b (List.mem_of_find?_eq_some hb)

namespace Chain.Holds

theorem find? {chain : Chain} (hc : chain.Holds P) {name v : Value}
    (h : chain.find? name = some v) : P v := by
  obtain ⟨s, hs, hv⟩ := List.exists_of_findSome?_eq_some h
  exact (hc s hs).find? hv

theorem define {chain : Chain} (hc : chain.Holds P) (name : Value) {v : Value} (hv : P v) :
    (chain.define name v).Holds P := by
  cases chain with
  | nil =>
    have hempty : Scope.Holds P {} := nofun
    exact List.forall_mem_singleton.mpr (hempty.insert name hv)
  | cons s outer =>
    obtain ⟨hs, houter⟩ := List.forall_mem_cons.mp hc
    exact List.forall_mem_cons.mpr ⟨hs.insert name hv, houter⟩

theorem assign? {chain chain' : Chain} (hc : chain.Holds P) {name v : Value} (hv : P v)
    (h : chain.assign? name v = some chain') : chain'.Holds P := by
  induction chain generalizing chain' with
  | nil => cases h
  | cons s outer ih =>
    obtain ⟨hs, houter⟩ := List.forall_mem_cons.mp hc
    unfold Chain.assign? at h
    split at h
    · cases h
      exact List.forall_mem_cons.mpr ⟨hs.insert name hv, houter⟩
    · obtain ⟨outer', h', rfl⟩ := Option.map_eq_some_iff.mp h
      exact List.forall_mem_cons.mpr ⟨hs, ih houter h'⟩

theorem head {chain : Chain} (hc : chain.Holds P) : (chain.head?.getD {}).Holds P := by
  cases chain with
  | nil => nofun
  | cons s outer => exact hc s List.mem_cons_self

end Chain.Holds

end LoxLang

namespace LoxLang.Run

variable {α β : Type} {P : Value → Prop}

/-- A set of values that running does not lead out of: it has those of the language, and joined
strings. -/
structure Steady (P : Value → Prop) : Prop where
  lox {v : Value} (h : v.isLox) : P v
  join {a b : Text} (ha : P (.string a)) (hb : P (.string b)) : P (.string (a ++ b))

theorem steady_isLox : Steady fun v => v.isLox where
  lox h := h
  join {a b} ha hb := by
    cases a with
    | whole => cases b with
      | whole => rfl
      | ragged => cases hb
    | ragged => cases ha

theorem steady_isLegible : Steady fun v => v.isLegible where
  lox := Value.isLegible_of_isLox
  join {a b} ha hb := (Text.isWhole_append a b).trans (Bool.and_eq_true_iff.mpr ⟨ha, hb⟩)

theorem steady_isLoxOrRagged : Steady Value.IsLoxOrRagged where
  lox := .inl
  join {a b} _ _ := by
    cases a ++ b with
    | whole s => exact .inl rfl
    | ragged r => exact .inr ⟨r, rfl⟩

theorem steady_all : Steady fun _ => True :=
  ⟨fun _ => trivial, fun _ _ => trivial⟩

/-- A result with the property, or a runtime error that can be traced. -/
def Proper (Q : α → Prop) (result : Except Fault α) : Prop :=
  (∃ a, result = .ok a ∧ Q a) ∨ ∃ e, result = .error (.runtime e) ∧ e.message.isWhole

/-- How a computation with the trace `t` ends on values with the property `P`: properly, or on the
trace if it shows values and some of them are ragged. Such values are in all scopes again, and the
same events are due. -/
structure Closes (P : Value → Prop) (Q : α → Prop) (t : Trace) (final : Except Fault α × World) :
    Prop where
  result : Proper Q final.1 ∨ BrokenOff final.1 ∧ t.isLoud ∧ ∃ v, P v ∧ ¬ v.isLegible
  chain : final.2.chain.Holds P
  shows : final.2.trace.shows = t.shows

/-- The computation ends so from all worlds with such values. -/
def Safe (P : Value → Prop) (Q : α → Prop) (m : Exec α) : Prop :=
  ∀ w : World, w.chain.Holds P → Closes P Q w.trace (m w)

theorem proper_ok {Q : α → Prop} {a : α} (h : Q a) : Proper Q (.ok a) :=
  .inl ⟨a, rfl, h⟩

theorem proper_runtime {Q : α → Prop} {e : RuntimeError} (h : e.message.isWhole) :
    Proper Q (.error (.runtime e)) :=
  .inr ⟨e, rfl, h⟩

theorem safe_pure {Q : α → Prop} {a : α} (h : Q a) : Safe P Q (pure a) :=
  fun _ hw => ⟨.inl (proper_ok h), hw, rfl⟩

theorem Safe.bind {Q : α → Prop} {R : β → Prop} {m : Exec α} {f : α → Exec β} (hm : Safe P Q m)
    (hf : ∀ a, Q a → Safe P R (f a)) : Safe P R (m >>= f) := by
  intro w hw
  have hfinal := hm w hw
  rw [bind_apply]
  generalize m w = final at hfinal
  obtain ⟨result, w'⟩ := final
  obtain ⟨hresult, hw', hshows⟩ := hfinal
  obtain (⟨a, rfl, ha⟩ | ⟨e, rfl, he⟩) | ⟨⟨r, rfl⟩, hloud⟩ := hresult
  · obtain ⟨hresult, hw'', hshows'⟩ := hf a ha w' hw'
    rw [Trace.isLoud_eq_of_shows hshows] at hresult
    exact ⟨hresult, hw'', hshows'.trans hshows⟩
  · exact ⟨.inl (proper_runtime he), hw', hshows⟩
  · exact ⟨.inr ⟨⟨r, rfl⟩, hloud⟩, hw', hshows⟩

theorem safe_ofExcept {Q : α → Prop} {x : Except Fault α} (h : Proper Q x) :
    Safe P Q (ofExcept x) :=
  fun _ hw => ⟨.inl h, hw, rfl⟩

/-- An event that shows a value, or whose line is whole, closes a world. -/
theorem closes_happen {w : World} (hw : w.chain.Holds P) {e : Event}
    (he : e.text.isWhole ∨ 2 ≤ e.level ∧ ∃ v, P v ∧ ¬ v.isLegible) :
    Closes P (fun _ => True) w.trace (happen e w) := by
  obtain ⟨u, hu, hshows, -⟩ | ⟨r, hr, hdue, htext⟩ := w.trace.write_cases e
  · rw [happen_of_ok hu]
    exact ⟨.inl (proper_ok trivial), hw, hshows⟩
  · rw [happen_of_error hr]
    obtain hwhole | ⟨hlevel, hv⟩ := he
    · rw [htext] at hwhole
      cases hwhole
    · exact ⟨.inr ⟨⟨r, rfl⟩, Trace.isLoud_of_shows hlevel hdue, hv⟩, hw, rfl⟩

/-- The line of an event that shows a value is whole if the value is legible. -/
theorem whole_or_illegible {e : Event} {v : Value} (hv : P v)
    (htext : e.text.isWhole = v.isLegible) (hlevel : 2 ≤ e.level) :
    e.text.isWhole ∨ 2 ≤ e.level ∧ ∃ v, P v ∧ ¬ v.isLegible := by
  by_cases h : v.isLegible
  · exact .inl (htext.trans h)
  · exact .inr ⟨hlevel, v, hv, h⟩

theorem safe_happen {e : Event} (he : e.text.isWhole) : Safe P (fun _ => True) (happen e) :=
  fun _ hw => closes_happen hw (.inl he)

theorem safe_print {v : Value} (hv : P v) : Safe P (fun _ => True) (happen (.printed v)) :=
  fun _ hw => closes_happen hw (whole_or_illegible hv (isWhole_printed v) (show 2 ≤ 3 by decide))

theorem undefined_isWhole (t : Token) : (RuntimeError.undefined t.loose).message.isWhole := rfl

theorem safe_lookup (t : Token) : Safe P P (lookup t.toValue) := by
  intro w hw
  rw [lookup_apply]
  split
  · next v hv => exact ⟨.inl (proper_ok (hw.find? hv)), hw, rfl⟩
  · exact ⟨.inl (proper_runtime (undefined_isWhole t)), hw, rfl⟩

theorem safe_assign (t : Token) {v : Value} (hv : P v) :
    Safe P (fun _ => True) (assign t.toValue v) := by
  intro w hw
  rw [assign_apply]
  split
  · next chain hchain =>
    exact closes_happen (w := { w with chain }) (hw.assign? hv hchain)
      (whole_or_illegible hv (isWhole_assigned t.lexeme v) (Int.le_refl 2))
  · exact ⟨.inl (proper_runtime (undefined_isWhole t)), hw, rfl⟩

theorem safe_define (t : Token) {v : Value} (hv : P v) :
    Safe P (fun _ => True) (define t.toValue v) := by
  intro w hw
  rw [define_apply]
  exact closes_happen (w := { w with chain := w.chain.define (.string t.lexeme) v })
    (hw.define _ hv) (whole_or_illegible hv (isWhole_declared t.lexeme v) (Int.le_refl 2))

theorem Safe.inNewScope {Q : Unit → Prop} {body : Exec Unit} (h : Safe P Q body) :
    Safe P Q (inNewScope body) := by
  intro w hw
  have hchain : Chain.Holds P ({} :: w.chain) := List.forall_mem_cons.mpr ⟨nofun, hw⟩
  obtain ⟨hresult, hw', hshows⟩ := h { w with chain := {} :: w.chain } hchain
  exact ⟨hresult, fun s hs => hw' s (List.mem_of_mem_tail hs), hshows⟩

/-- The error that stops a safe computation has a whole line, so it is traced and passed on. -/
theorem Safe.passedOn {Q : Unit → Prop} {m : Exec Unit} (h : Safe P Q m) :
    Safe P Q (tryCatch m passOn) := by
  intro w hw
  have hfinal := h w hw
  rw [tryCatch_apply]
  generalize m w = final at hfinal
  obtain ⟨result, w'⟩ := final
  obtain ⟨(⟨a, rfl, ha⟩ | ⟨e, rfl, he⟩) | ⟨⟨r, rfl⟩, hloud⟩, hw', hshows⟩ := hfinal
  · exact ⟨.inl (proper_ok ha), hw', hshows⟩
  · have hwhole : (Event.failed e.token.line e.message).text.isWhole := by
      simpa [Event.text] using he
    obtain ⟨u, hu, hshows'⟩ := Trace.write_ok (t := w'.trace) fun _ => hwhole
    change Closes P Q w.trace (passOn (.runtime e) w')
    rw [passOn_runtime, happen_of_ok hu]
    exact ⟨.inl (proper_runtime he), hw', hshows'.trans hshows⟩
  · exact ⟨.inr ⟨⟨r, rfl⟩, hloud⟩, hw', hshows⟩

/-- Division by the cases of the language never comes to a quotient by a zero. -/
theorem exists_divide (x y : Float) : ∃ q, divide x y = .ok q := by
  unfold divide
  split
  · next hy =>
    have hy' : (y == 0) = false := by simpa [bne] using hy
    rw [quotient, hy']
    exact ⟨x / y, rfl⟩
  · split
    · exact ⟨_, rfl⟩
    · exact ⟨_, rfl⟩

/-- An operator on two numbers has a result unless it is none of those. -/
theorem applyNumbers_cases (t : LooseToken) (x y : Float) :
    (∃ v, applyNumbers t x y = .ok v ∧ v.isLox) ∨
      applyNumbers t x y = .error (.breakdown (.misfit (.notBinary t))) ∧
        t.kind ∉ [.greater, .greaterEqual, .less, .lessEqual, .minus, .star, .slash] := by
  unfold applyNumbers
  split
  case h_7 =>
    obtain ⟨q, hq⟩ := exists_divide x y
    rw [hq]
    exact .inl ⟨.number q, rfl, rfl⟩
  case h_8 => exact .inr ⟨rfl, by simp_all⟩
  all_goals exact .inl ⟨_, rfl, rfl⟩

/-- What any operator comes to on values of such a set: a value of the set, a mismatch, or a misfit
if it is not an operator. -/
inductive Responds (P : Value → Prop) : Except Fault Value → Prop where
  | value {v : Value} (hv : P v) : Responds P (.ok v)
  | mismatch (t : LooseToken) (need : Need) : Responds P (.error (.runtime (.mismatch t need)))
  | misfit (m : Misfit) : Responds P (.error (.breakdown (.misfit m)))

theorem responds_applyUnary (hP : Steady P) (operator v : Value) :
    Responds P (applyUnary operator v) := by
  unfold applyUnary asToken
  cases operator.token? with
  | none => exact .misfit _
  | some t =>
    simp only [bind, Except.bind]
    split
    · exact .value (hP.lox rfl)
    · exact .value (hP.lox rfl)
    · exact .mismatch t .number
    · exact .misfit _

theorem responds_applyBinary (hP : Steady P) (operator : Value) {a b : Value} (ha : P a) (hb : P b) :
    Responds P (applyBinary operator a b) := by
  unfold applyBinary asToken
  cases operator.token? with
  | none => exact .misfit _
  | some t =>
    simp only [bind, Except.bind]
    split
    · exact .value (hP.lox rfl)
    · exact .value (hP.lox rfl)
    · exact .value (hP.lox rfl)
    · exact .value (hP.join ha hb)
    · exact .mismatch t .numbersOrStrings
    · obtain ⟨v, hv, hlox⟩ | ⟨hmisfit, -⟩ := applyNumbers_cases t _ _
      · rw [hv]
        exact .value (hP.lox hlox)
      · rw [hmisfit]
        exact .misfit _
    · exact .mismatch t .numbers

/-- What an operator comes to: a value with the property, or a mismatch with the operator to
blame. -/
inductive Decides (P : Value → Prop) (t : LooseToken) : Except Fault Value → Prop where
  | value {v : Value} (hv : P v) : Decides P t (.ok v)
  | mismatch (need : Need) : Decides P t (.error (.runtime (.mismatch t need)))

theorem Decides.proper {t : LooseToken} {result : Except Fault Value} (h : Decides P t result) :
    Proper P result := by
  cases h with
  | value hv => exact proper_ok hv
  | mismatch need => exact proper_runtime (by cases need <;> rfl)

section

variable (hP : Steady P)
include hP

theorem decides_applyUnary {t : LooseToken} (hk : t.kind ∈ [TokenKind.bang, .minus]) (v : Value) :
    Decides P t (applyUnary (.ofLoose t) v) := by
  obtain ⟨kind, lexeme, literal, line⟩ := t
  have hk' : kind = .bang ∨ kind = .minus := by simpa using hk
  obtain rfl | rfl := hk'
  · exact .value (hP.lox rfl)
  · cases v with
    | number x => exact .value (hP.lox rfl)
    | _ => exact .mismatch .number

theorem decides_applyNumbers {t : LooseToken} (hk : t.kind ∈ binaryKinds)
    (heq : t.kind ≠ .equalEqual) (hne : t.kind ≠ .bangEqual) (hplus : t.kind ≠ .plus) (x y : Float) :
    Decides P t (applyNumbers t x y) := by
  obtain ⟨v, hv, hlox⟩ | ⟨-, hkind⟩ := applyNumbers_cases t x y
  · rw [hv]
    exact .value (hP.lox hlox)
  · simp_all [binaryKinds]

theorem decides_applyBinary {t : LooseToken} (hk : t.kind ∈ binaryKinds) {a b : Value} (ha : P a)
    (hb : P b) : Decides P t (applyBinary (.ofLoose t) a b) := by
  have htoken : asToken (.ofLoose t) .kind = .ok t := rfl
  unfold applyBinary
  rw [htoken]
  simp only [bind, Except.bind]
  split
  · exact .value (hP.lox rfl)
  · exact .value (hP.lox rfl)
  · exact .value (hP.lox rfl)
  · exact .value (hP.join ha hb)
  · exact .mismatch .numbersOrStrings
  · next heq hne hplus => exact decides_applyNumbers hP hk heq hne hplus _ _
  · exact .mismatch .numbers

/-- A unary operator of the grammar has a result or calls for a number. -/
theorem proper_applyUnary {operator : Token} (hk : operator.kind ∈ [TokenKind.bang, .minus])
    (v : Value) : Proper P (applyUnary operator.toValue v) :=
  (decides_applyUnary hP (t := operator.loose) hk v).proper

/-- A binary operator of the grammar has a result or calls for other operands. -/
theorem proper_applyBinary {operator : Token} (hk : operator.kind ∈ binaryKinds) {a b : Value}
    (ha : P a) (hb : P b) : Proper P (applyBinary operator.toValue a b) :=
  (decides_applyBinary hP (t := operator.loose) hk ha hb).proper

theorem safe_evaluate {e : Expr} (he : e.Consists P fun _ => True) :
    Safe P P (evaluate e.toValue) := by
  induction e with
  | literal v => exact safe_pure he
  | grouping e ih => exact ih he
  | unary operator e ih =>
    obtain ⟨hk, -, hright⟩ := he
    exact (ih hright).bind fun v _ => safe_ofExcept (proper_applyUnary hP hk v)
  | binary l operator r ihl ihr =>
    obtain ⟨hk, -, hl, hr⟩ := he
    exact (ihl hl).bind fun a ha => (ihr hr).bind fun b hb =>
      safe_ofExcept (proper_applyBinary hP hk ha hb)
  | «variable» name => exact safe_lookup name
  | assign name e ih =>
    obtain ⟨-, -, hvalue⟩ := he
    exact (ih hvalue).bind fun v hv => (safe_assign name hv).bind fun _ _ => safe_pure hv

theorem safe_initialValue {initializer : Option Expr}
    (h : ∀ e ∈ initializer, e.Consists P fun _ => True) :
    Safe P P (initialValue (initializer.elim .nil Expr.toValue)) := by
  cases initializer with
  | none => exact safe_pure (hP.lox rfl)
  | some e =>
    rw [Option.elim_some, initialValue_toValue]
    exact safe_evaluate hP (h e rfl)

end

mutual

theorem safe_execute (hP : Steady P) : {s : Stmt} → s.Consists P (fun _ => True) →
    Safe P (fun _ => True) (execute s.toValue)
  | .expression _, h => (safe_evaluate hP h).bind fun _ _ => safe_pure trivial
  | .print _, h => (safe_evaluate hP h).bind fun _ hv => safe_print hv
  | .var name _, h => (safe_initialValue hP h.2.2).bind fun _ hv => safe_define name hv
  | .block body, h => Safe.inNewScope ((safe_happen rfl).bind fun _ _ =>
      (safe_executeAll hP body h).bind fun _ _ => safe_happen rfl)

theorem safe_executeAll (hP : Steady P) : (ss : List Stmt) → Stmt.AllConsist P (fun _ => True) ss →
    Safe P (fun _ => True) (executeAll (Stmt.toValues ss))
  | [], _ => safe_pure trivial
  | s :: ss, h => (safe_execute hP (s := s) h.1).bind fun _ _ => safe_executeAll hP ss h.2

end

theorem safe_executeProgram (hP : Steady P) {ss : List Stmt}
    (h : Stmt.AllConsist P (fun _ => True) ss) :
    Safe P (fun _ => True) (executeProgram (Stmt.toValues ss)) :=
  (safe_happen rfl).bind fun _ _ => (safe_executeAll hP ss h).passedOn

/-- Well-formed statements have the values of the language as literals, so those of every such
set. -/
theorem Steady.allConsist (hP : Steady P) {ss : List Stmt} (h : ∀ s ∈ ss, s.WellFormed) :
    Stmt.AllConsist P (fun _ => True) ss :=
  Stmt.allConsist_iff.mpr fun s hs => (h s hs).mono (fun _ => hP.lox) fun _ => id

/-- A program of well-formed statements comes to what the statements come to. -/
theorem executeProgram_eq {ss : List Stmt} (h : ∀ s ∈ ss, s.WellFormed) {w : World} {u : Trace}
    (hu : w.trace.write (.started (Stmt.toValues ss).length) = .ok u) :
    let started : World := ⟨w.chain, w.events.push (.started (Stmt.toValues ss).length), u⟩
    let final := executeAll (Stmt.toValues ss) started
    (executeProgram (Stmt.toValues ss) w).1 = final.1 ∧
    (executeProgram (Stmt.toValues ss) w).2.chain = final.2.chain ∧
    written (executeProgram (Stmt.toValues ss) w).2.events = written final.2.events := by
  intro started final
  have hsafe := safe_executeAll steady_all ss (steady_all.allConsist h) started fun _ _ _ _ => trivial
  have hresult := hsafe.result
  have hfinal : executeAll (Stmt.toValues ss)
      ⟨w.chain, w.events.push (.started (Stmt.toValues ss).length), u⟩ = final := rfl
  change Proper _ final.1 ∨ BrokenOff final.1 ∧ _ at hresult
  rw [executeProgram_apply hu, hfinal]
  clear_value final
  obtain ⟨result, w'⟩ := final
  obtain (⟨a, rfl, -⟩ | ⟨e, rfl, he⟩) | ⟨⟨r, rfl⟩, -⟩ := hresult
  · exact ⟨rfl, rfl, rfl⟩
  · have hwhole : (Event.failed e.token.line e.message).text.isWhole := by
      simpa [Event.text] using he
    obtain ⟨u', hu', -⟩ := Trace.write_ok (t := w'.trace) fun _ => hwhole
    change (passOn (.runtime e) w').1 = _ ∧ (passOn (.runtime e) w').2.chain = _ ∧
      written (passOn (.runtime e) w').2.events = _
    rw [passOn_runtime, happen_of_ok hu']
    exact ⟨rfl, rfl, written_push_of_silent _ rfl⟩
  · exact ⟨rfl, rfl, rfl⟩

end LoxLang.Run

namespace LoxLang

open Grammar Run

theorem scan_literal_isLox {source : String} {t : Token} (ht : t ∈ (Source.scan source).tokens) :
    t.literal.isLox := by
  obtain rfl | ⟨p, -, hp⟩ := Source.mem_scan_tokens ht
  · rfl
  · obtain h | ⟨d, h⟩ | ⟨s, h⟩ := hp.literal_cases <;> rw [h] <;> rfl

theorem literalsHave_isLox :
    LiteralsHave (fun v => v.isLox) fun t => t.literal.isLox := by
  intro t ht _
  unfold literalValue
  split
  · rfl
  · rfl
  · rfl
  · exact ht

/-- Every source text is taken for a program, with well-formed statements only. -/
theorem parse_scan_wellFormed (source : String) :
    ∃ ss, (parse (Source.scan source).tokens).result = .ok ss ∧ ∀ s ∈ ss, s.WellFormed := by
  obtain ⟨ss, hss, hall⟩ := parse_consists literalsHave_isLox (fun _ => scan_literal_isLox)
    (Source.exists_eof_mem_scan_tokens source)
  exact ⟨ss, hss, fun s hs => (hall s hs).mono (fun _ hv => hv) fun _ _ => trivial⟩

namespace Session

/-- The statements that a source text is taken for. -/
def statementsOf (source : String) : List Stmt :=
  (readSource source).statements.toOption.getD []

theorem readSource_statements (source : String) :
    (readSource source).statements = .ok (statementsOf source) := by
  obtain ⟨ss, hss, -⟩ := parse_scan_wellFormed source
  have hread : (readSource source).statements = .ok ss := hss
  rw [statementsOf, hread]
  rfl

theorem statementsOf_wellFormed (source : String) : ∀ s ∈ statementsOf source, s.WellFormed := by
  obtain ⟨ss, hss, hwell⟩ := parse_scan_wellFormed source
  have hread : (readSource source).statements = .ok ss := hss
  rw [Except.ok.inj ((readSource_statements source).symm.trans hread)]
  exact hwell

theorem runSource_eq (s : Session) (source : String) :
    s.runSource source =
      { s with report := s.report.addAll (readSource source).diagnostics }.interpret
        (Stmt.toValues (statementsOf source)) :=
  runSource_of_ok (readSource_statements source) s

/-- Well-formed statements are run to their end or to a runtime error unless the trace shows values
and finds a ragged one, and they leave such values behind as there were. -/
theorem ran_safe {P : Value → Prop} (hP : Steady P) (s : Session) {chain : Chain}
    (hchain : chain.Holds P) (hquiet : s.trace.isLoud → ∀ v, P v → v.isLegible) {ss : List Stmt}
    (hss : ∀ t ∈ ss, t.WellFormed) :
    (∃ completed, ending (s.ran (Stmt.toValues ss) chain).1 = .ok completed) ∧
      (s.ran (Stmt.toValues ss) chain).2.chain.Holds P := by
  obtain ⟨hresult, hholds, -⟩ :=
    safe_executeProgram hP (hP.allConsist hss) ⟨chain, #[], s.trace⟩ hchain
  refine ⟨?_, hholds⟩
  obtain (⟨a, ha, -⟩ | ⟨e, he, -⟩) | ⟨-, hloud, v, hv, hillegible⟩ := hresult
  · exact ⟨true, congrArg ending ha⟩
  · exact ⟨false, congrArg ending he⟩
  · exact absurd (hquiet hloud v hv) hillegible

theorem interpret_safe {P : Value → Prop} (hP : Steady P) (s : Session) (hs : s.globals.Holds P)
    (hquiet : s.trace.isLoud → ∀ v, P v → v.isLegible) {ss : List Stmt}
    (hss : ∀ t ∈ ss, t.WellFormed) :
    ∃ completed, (s.interpret (Stmt.toValues ss)).1 = .ok completed ∧
      (s.interpret (Stmt.toValues ss)).2.globals.Holds P := by
  have hchain : Chain.Holds P [s.globals] := List.forall_mem_singleton.mpr hs
  obtain ⟨⟨completed, hending⟩, hholds⟩ := s.ran_safe hP hchain hquiet hss
  rw [interpret_eq]
  exact ⟨completed, hending, hholds.head⟩

theorem runSource_safe {P : Value → Prop} (hP : Steady P) (s : Session) (hs : s.globals.Holds P)
    (hquiet : s.trace.isLoud → ∀ v, P v → v.isLegible) (source : String) :
    ∃ completed, (s.runSource source).1 = .ok completed ∧
      (s.runSource source).2.globals.Holds P := by
  rw [runSource_eq]
  exact interpret_safe hP { s with report := s.report.addAll (readSource source).diagnostics } hs
    hquiet (statementsOf_wellFormed source)

theorem runSource_isLox (s : Session) (hs : s.globals.IsLox) (source : String) :
    ∃ completed, (s.runSource source).1 = .ok completed ∧ (s.runSource source).2.globals.IsLox :=
  s.runSource_safe steady_isLox hs (fun _ _ => Value.isLegible_of_isLox) source

end Session

end LoxLang
