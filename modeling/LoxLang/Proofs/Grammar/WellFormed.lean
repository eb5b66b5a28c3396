import LoxLang.Proofs.Grammar.Derivation
import LoxLang.Proofs.Grammar.Fuel

/-!
What the parsers build, even where they had to recover: operators and names are tokens of the list,
of the kinds that their places call for, and literals are the values of tokens of the list.
-/
namespace LoxLang

/-- The kinds of the operators between two operands. -/
def binaryKinds : List TokenKind :=
  [.bangEqual, .equalEqual, .greater, .greaterEqual, .less, .lessEqual, .minus, .plus, .slash, .star]

section

variable (V : Value → Prop) (T : Token → Prop)

/-- Every operator and name is a token with the property `T` of a kind that fits its place, and
every literal has the property `V`. -/
def Expr.Consists : Expr → Prop
  | .literal v => V v
  | .grouping e => e.Consists
  | .unary operator e => operator.kind ∈ [.bang, .minus] ∧ T operator ∧ e.Consists
  | .binary l operator r =>
    operator.kind ∈ binaryKinds ∧ T operator ∧ l.Consists ∧ r.Consists
  | .variable name => name.kind = .identifier ∧ T name
  | .assign name e => name.kind = .identifier ∧ T name ∧ e.Consists

mutual

def Stmt.Consists : Stmt → Prop
  | .expression e => e.Consists V T
  | .print e => e.Consists V T
  | .var name initializer =>
    name.kind = .identifier ∧ T name ∧ ∀ e ∈ initializer, e.Consists V T
  | .block body => Stmt.AllConsist body

def Stmt.AllConsist : List Stmt → Prop
  | [] => True
  | s :: ss => s.Consists ∧ Stmt.AllConsist ss

end

end

/-- A tree that the language gives a meaning to: the operators are known, names are identifiers and
literals are values of the language. -/
def Expr.WellFormed (e : Expr) : Prop :=
  e.Consists (fun v => v.isLox) fun _ => True

def Stmt.WellFormed (s : Stmt) : Prop :=
  s.Consists (fun v => v.isLox) fun _ => True

variable {V : Value → Prop} {T : Token → Prop}

theorem Expr.Consists.mono {V' : Value → Prop} {T' : Token → Prop} (hV : ∀ v, V v → V' v)
    (hT : ∀ t, T t → T' t) {e : Expr} (h : e.Consists V T) : e.Consists V' T' := by
  induction e with
  | literal v => exact hV v h
  | grouping e ih => exact ih h
  | unary operator e ih => exact ⟨h.1, hT _ h.2.1, ih h.2.2⟩
  | binary l operator r ihl ihr => exact ⟨h.1, hT _ h.2.1, ihl h.2.2.1, ihr h.2.2.2⟩
  | «variable» name => exact ⟨h.1, hT _ h.2⟩
  | assign name e ih => exact ⟨h.1, hT _ h.2.1, ih h.2.2⟩

mutual

theorem Stmt.Consists.mono {V' : Value → Prop} {T' : Token → Prop} (hV : ∀ v, V v → V' v)
    (hT : ∀ t, T t → T' t) : {s : Stmt} → s.Consists V T → s.Consists V' T'
  | .expression _, h => Expr.Consists.mono hV hT h
  | .print _, h => Expr.Consists.mono hV hT h
  | .var _ _, h => ⟨h.1, hT _ h.2.1, fun e he => (h.2.2 e he).mono hV hT⟩
  | .block body, h => Stmt.AllConsist.mono hV hT body h

theorem Stmt.AllConsist.mono {V' : Value → Prop} {T' : Token → Prop} (hV : ∀ v, V v → V' v)
    (hT : ∀ t, T t → T' t) : (ss : List Stmt) → Stmt.AllConsist V T ss → Stmt.AllConsist V' T' ss
  | [], _ => trivial
  | _ :: ss, h => ⟨h.1.mono hV hT, Stmt.AllConsist.mono hV hT ss h.2⟩

end

theorem Stmt.allConsist_iff {ss : List Stmt} :
    Stmt.AllConsist V T ss ↔ ∀ s ∈ ss, s.Consists V T := by
  induction ss with
  | nil => simp [Stmt.AllConsist]
  | cons s ss ih => simp [Stmt.AllConsist, ih]

end LoxLang

namespace LoxLang.Grammar

open Parse

variable {α β : Type} {V : Value → Prop} {T : Token → Prop}

/-- From tokens with the property `T` the parser makes results with the property `W`, and it leaves
such tokens ahead. -/
def Parse.Builds (T : Token → Prop) (W : α → Prop) (p : Parse α) : Prop :=
  ∀ c, (∀ t ∈ c.ahead, T t) →
    (∀ t ∈ (p c).cursor.ahead, T t) ∧ ∀ a, (p c).result = .ok a → W a

namespace Parse

theorem Builds.bind {p : Parse α} {f : α → Parse β} {W : α → Prop} {W' : β → Prop}
    (hp : p.Builds T W) (hf : ∀ a, W a → (f a).Builds T W') : (p >>= f).Builds T W' := by
  intro c hc
  obtain ⟨hahead, hresult⟩ := hp c hc
  cases hr : (p c).result with
  | error stop =>
    rw [bind_of_error hr]
    exact ⟨hahead, by simp⟩
  | ok a =>
    rw [bind_of_ok hr]
    exact hf a (hresult a hr) _ hahead

theorem builds_pure {W : α → Prop} {a : α} (h : W a) : (Pure.pure a : Parse α).Builds T W := by
  intro c hc
  refine ⟨hc, ?_⟩
  rintro _ ⟨⟩
  exact h

theorem builds_pastEnd {W : α → Prop} : (pastEnd : Parse α).Builds T W :=
  fun _ hc => ⟨hc, nofun⟩

theorem builds_peek : peek.Builds T T := by
  rintro ⟨pos, _ | ⟨t, rest⟩⟩ hc
  · exact ⟨hc, nofun⟩
  · refine ⟨hc, ?_⟩
    rintro _ ⟨⟩
    exact hc _ (List.mem_cons_self ..)

theorem builds_raiseHere {W : α → Prop} (problem : Problem) :
    (raiseHere problem : Parse α).Builds T W := by
  rintro ⟨pos, _ | ⟨t, rest⟩⟩ hc
  · exact ⟨hc, nofun⟩
  · exact ⟨hc, nofun⟩

theorem builds_accept_bind {kinds : List TokenKind} {g : Option Token → Parse β} {W : β → Prop}
    (hs : ∀ t, T t → t.kind ∈ kinds → (g (some t)).Builds T W) (hn : (g none).Builds T W) :
    (accept kinds >>= g).Builds T W := by
  rintro ⟨pos, _ | ⟨t, rest⟩⟩ hc
  · exact ⟨hc, nofun⟩
  by_cases ht : t.kind ≠ .eof ∧ t.kind ∈ kinds
  · rw [accept_bind_of_mem ht.1 ht.2]
    apply hs t (hc t (List.mem_cons_self ..)) ht.2
    exact fun u hu => hc u (List.mem_cons_of_mem t hu)
  · rw [accept_bind_of_not ht]
    exact hn _ hc

theorem builds_consume (kind : TokenKind) (problem : Problem) :
    (consume kind problem).Builds T fun t => t.kind = kind ∧ T t := by
  apply builds_accept_bind
  · exact fun t ht hk => builds_pure ⟨List.mem_singleton.mp hk, ht⟩
  · exact builds_raiseHere problem

theorem Builds.recovering {p : Parse α} {W : α → Prop} (hp : p.Builds T W) :
    (recovering p).Builds T fun o => ∀ a ∈ o, W a := by
  intro c hc
  obtain ⟨hahead, hresult⟩ := hp c hc
  cases hr : (p c).result with
  | ok a =>
    rw [recovering_of_ok hr]
    refine ⟨hahead, ?_⟩
    rintro _ ⟨⟩ a ⟨⟩
    exact hresult _ hr
  | error stop =>
    cases stop with
    | pastEnd =>
      rw [recovering_of_pastEnd hr]
      exact ⟨hahead, nofun⟩
    | raised b =>
      rw [recovering_of_raised hr]
      have hreaches := (moves_synchronize (p c).cursor).reaches
      refine ⟨fun t ht => hahead t (hreaches.mem ht), ?_⟩
      intro o ho
      cases hs : (synchronize (p c).cursor).result with
      | error stop => simp [hs, Except.map] at ho
      | ok u =>
        simp only [hs, Except.map, Except.ok.injEq] at ho
        subst ho
        nofun

end Parse

theorem Level.operators_subset_binaryKinds (level : Level) : level.operators ⊆ binaryKinds := by
  cases level <;> simp [Level.operators, binaryKinds]

/-- The values of literals in the list have the property `V`. -/
def LiteralsHave (V : Value → Prop) (T : Token → Prop) : Prop :=
  ∀ t, T t → t.kind ∈ literalKinds → V (literalValue t)

theorem expression_builds (hV : LiteralsHave V T) (fuel : Nat) :
    (assignmentFuel fuel).Builds T (Expr.Consists V T) ∧
    (∀ level, (levelFuel fuel level).Builds T (Expr.Consists V T)) ∧
    (∀ level, (operandFuel fuel level).Builds T (Expr.Consists V T)) ∧
    (∀ level left, left.Consists V T →
      (chainFuel fuel level left).Builds T (Expr.Consists V T)) ∧
    (unaryFuel fuel).Builds T (Expr.Consists V T) ∧
    (primaryFuel fuel).Builds T (Expr.Consists V T) := by
  induction fuel with
  | zero =>
    exact ⟨builds_pastEnd, fun _ => builds_pastEnd, fun _ => builds_pastEnd,
      fun _ _ _ => builds_pastEnd, builds_pastEnd, builds_pastEnd⟩
  | succ fuel ih =>
    obtain ⟨ha, hl, ho, hc, hu, hp⟩ := ih
    refine ⟨?_, ?_, ?_, ?_, ?_, ?_⟩
    · refine (hl .equality).bind fun left hleft => ?_
      refine builds_accept_bind (fun equals _ _ => ?_) (builds_pure hleft)
      have hposition : position.Builds T fun _ => True := fun c hc => ⟨hc, fun _ _ => trivial⟩
      refine hposition.bind fun pos _ => ha.bind fun value hvalue => ?_
      split
      · exact builds_pure ⟨hleft.1, hleft.2, hvalue⟩
      · -- a left side that is no name stands for the whole
        have hcomplain : ∀ b, (complain b).Builds T fun _ => True :=
          fun b c hc => ⟨hc, fun _ _ => trivial⟩
        exact (hcomplain _).bind fun _ _ => builds_pure hleft
    · exact fun level => (ho level).bind fun first hfirst => hc level first hfirst
    · intro level
      unfold operandFuel
      cases level.tighter with
      | some tighter => exact hl tighter
      | none => exact hu
    · intro level left hleft
      refine builds_accept_bind (fun operator hoperator hkind => ?_) (builds_pure hleft)
      refine (ho level).bind fun right hright => hc level _ ?_
      exact ⟨level.operators_subset_binaryKinds hkind, hoperator, hleft, hright⟩
    · refine builds_accept_bind (fun operator hoperator hkind => ?_) hp
      exact hu.bind fun right hright => builds_pure ⟨hkind, hoperator, hright⟩
    · refine builds_accept_bind (fun t ht hkind => ?_) (builds_raiseHere _)
      have hliteral : t.kind ∈ literalKinds → V (literalValue t) := hV t ht
      dsimp only
      split
      case h_4 hk => exact builds_pure ⟨hk, ht⟩
      case h_5 =>
        exact ha.bind fun inner hinner => (builds_consume _ _).bind fun _ _ => builds_pure hinner
      case h_6 hfalse htrue hnil hname hparen =>
        have hk : t.kind ∈ literalKinds := by
          simp_all [literalKinds]
        have hvalue : literalValue t = t.literal := by
          simp_all [literalValue]
        exact builds_pure (show V t.literal from hvalue ▸ hliteral hk)
      all_goals
        next hk =>
        refine builds_pure ?_
        have hvalue := hliteral (by simp [literalKinds, hk])
        simpa only [Expr.Consists, literalValue, hk] using hvalue

theorem builds_expression (hV : LiteralsHave V T) :
    expression.Builds T (Expr.Consists V T) :=
  fun c hc => (expression_builds hV _).1 c hc

/-- An expression and the semicolon after it. -/
theorem builds_expression_consume (hV : LiteralsHave V T) (problem : Problem) {f : Expr → Stmt}
    (hf : ∀ e, e.Consists V T → (f e).Consists V T) :
    (do
      let value ← expression
      let _ ← consume .semicolon problem
      return f value : Parse Stmt).Builds T (Stmt.Consists V T) :=
  (builds_expression hV).bind fun e he =>
    (builds_consume _ _).bind fun _ _ => builds_pure (hf e he)

theorem builds_varDeclaration (hV : LiteralsHave V T) :
    varDeclaration.Builds T (Stmt.Consists V T) := by
  refine (builds_consume _ _).bind fun name hname => ?_
  refine builds_accept_bind (fun equals _ _ => ?_) ?_
  · apply builds_expression_consume hV
    intro e he
    refine ⟨hname.1, hname.2, ?_⟩
    rintro _ ⟨⟩
    exact he
  · refine (builds_consume _ _).bind fun _ _ => builds_pure ⟨hname.1, hname.2, ?_⟩
    nofun

theorem statement_builds (hV : LiteralsHave V T) (fuel : Nat) :
    (declarationFuel fuel).Builds T (fun o => ∀ s ∈ o, s.Consists V T) ∧
    (statementFuel fuel).Builds T (Stmt.Consists V T) ∧
    (blockFuel fuel).Builds T (Stmt.AllConsist V T) := by
  induction fuel with
  | zero => exact ⟨builds_pastEnd, builds_pastEnd, builds_pastEnd⟩
  | succ fuel ih =>
    obtain ⟨hd, hs, hb⟩ := ih
    refine ⟨?_, ?_, ?_⟩
    · exact (builds_accept_bind (fun _ _ _ => builds_varDeclaration hV) hs).recovering
    · refine builds_accept_bind (fun t _ _ => ?_) (builds_expression_consume hV _ fun _ he => he)
      dsimp only
      split
      · exact builds_expression_consume hV _ fun _ he => he
      · exact hb.bind fun body hbody => builds_pure hbody
    · refine builds_peek.bind fun t _ => ?_
      split
      · exact (builds_consume _ _).bind fun _ _ => builds_pure trivial
      · refine hd.bind fun first hfirst => hb.bind fun rest hrest => builds_pure ?_
        cases first with
        | none => exact hrest
        | some s => exact ⟨hfirst s rfl, hrest⟩

theorem program_builds (hV : LiteralsHave V T) (fuel : Nat) :
    (programFuel fuel).Builds T (Stmt.AllConsist V T) := by
  induction fuel with
  | zero => exact builds_pastEnd
  | succ fuel ih =>
    refine (builds_peek.bind fun t _ => builds_pure trivial).bind fun atEnd (_ : True) => ?_
    split
    · exact builds_pure trivial
    · refine (statement_builds hV fuel).1.bind fun first hfirst => ih.bind fun rest hrest => ?_
      refine builds_pure ?_
      cases first with
      | none => exact hrest
      | some s => exact ⟨hfirst s rfl, hrest⟩

/-- A list of tokens with an end marker is parsed to statements made of its tokens. -/
theorem parse_consists (hV : LiteralsHave V T) {ts : List Token} (hts : ∀ t ∈ ts, T t)
    (hend : ∃ t ∈ ts, t.kind = .eof) :
    ∃ ss, (parse ts).result = .ok ss ∧ ∀ s ∈ ss, s.Consists V T := by
  obtain ⟨ss, hss⟩ := program_ok (c := ⟨0, ts⟩) hend
  refine ⟨ss, hss, Stmt.allConsist_iff.mp ?_⟩
  exact (program_builds hV _ ⟨0, ts⟩ hts).2 ss hss

end LoxLang.Grammar
