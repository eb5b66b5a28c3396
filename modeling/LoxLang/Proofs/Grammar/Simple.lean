import LoxLang.Proofs.Grammar.Blame
import LoxLang.Proofs.Grammar.Sequence

/-!
Declarations that are no blocks. One that is parsed ends with the first semicolon, one that is given
up is given up in front of what follows that semicolon, and neither depends on what follows it.
-/
namespace LoxLang.Grammar

open Parse

variable {α β : Type}

/-- A declaration that does not open with a brace, without its recovery. -/
def simpleDeclaration : Parse Stmt := do
  match ← accept [.varWord] with
  | some _ => varDeclaration
  | none =>
    match ← accept [.printWord] with
    | some _ => printStatement
    | none => expressionStatement

theorem simpleDeclaration_of_var {t : Token} (ht : t.kind = .varWord) (pos : Nat)
    (rest : List Token) : simpleDeclaration ⟨pos, t :: rest⟩ = varDeclaration ⟨pos + 1, rest⟩ :=
  accept_bind_of_mem (by simp [ht]) (by simp [ht]) pos rest

theorem simpleDeclaration_of_print {t : Token} (ht : t.kind = .printWord) (pos : Nat)
    (rest : List Token) : simpleDeclaration ⟨pos, t :: rest⟩ = printStatement ⟨pos + 1, rest⟩ :=
  (accept_bind_of_not (by simp [ht]) pos rest).trans
    (accept_bind_of_mem (by simp [ht]) (by simp [ht]) pos rest)

theorem simpleDeclaration_of_not {t : Token} (hvar : t.kind ≠ .varWord) (hprint : t.kind ≠ .printWord)
    (pos : Nat) (rest : List Token) :
    simpleDeclaration ⟨pos, t :: rest⟩ = expressionStatement ⟨pos, t :: rest⟩ :=
  (accept_bind_of_not (by simp [hvar]) pos rest).trans
    (accept_bind_of_not (by simp [hprint]) pos rest)

theorem sated_simpleDeclaration (c : Cursor) : simpleDeclaration.Sated c :=
  sated_accept_bind (fun _ _ _ _ => sated_varDeclaration _)
    (sated_accept_bind (fun _ _ _ _ => sated_printStatement _) (sated_expressionStatement c))

theorem recovering_congr {p q : Parse α} {c c' : Cursor} (h : p c = q c') :
    recovering p c = recovering q c' := by
  simp only [recovering, h]

/-- In front of any token but an opening brace every parser of declarations is that of simple ones,
however deep inside of blocks it is called. -/
theorem declarationFuel_eq {fuel : Nat} (hfuel : 2 ≤ fuel) {t : Token} (ht : t.kind ≠ .leftBrace)
    (pos : Nat) (rest : List Token) :
    declarationFuel fuel ⟨pos, t :: rest⟩ = recovering simpleDeclaration ⟨pos, t :: rest⟩ := by
  obtain ⟨n, rfl⟩ := Nat.exists_eq_add_of_le' hfuel
  refine recovering_congr ?_
  by_cases hvar : t.kind = .varWord
  · rw [simpleDeclaration_of_var hvar]
    exact accept_bind_of_mem (by simp [hvar]) (by simp [hvar]) pos rest
  refine (accept_bind_of_not (by simp [hvar]) pos rest).trans ?_
  by_cases hprint : t.kind = .printWord
  · rw [simpleDeclaration_of_print hprint]
    refine (accept_bind_of_mem (by simp [hprint]) (by simp [hprint]) pos rest).trans ?_
    dsimp only
    rw [if_pos hprint]
  · rw [simpleDeclaration_of_not hvar hprint]
    exact accept_bind_of_not (by simp [hprint, ht]) pos rest

theorem declaration_eq {t : Token} (ht : t.kind ≠ .leftBrace) (pos : Nat) (rest : List Token) :
    declaration ⟨pos, t :: rest⟩ = recovering simpleDeclaration ⟨pos, t :: rest⟩ :=
  declarationFuel_eq (by omega) ht pos rest

theorem moves_simpleDeclaration : simpleDeclaration.Moves NotEnd 1 := by
  refine moves_accept_bind (Nat.le_refl 1) (notEnd_of_mem (by decide))
    (fun _ _ => moves_varDeclaration.weaken) ?_
  exact moves_accept_bind (Nat.le_refl 1) (notEnd_of_mem (by decide))
    (fun _ _ => moves_printStatement.weaken) moves_expressionStatement

theorem blames_simpleDeclaration : simpleDeclaration.Blames 1 := by
  refine blames_choice (by decide) (fun _ _ => blames_varDeclaration) ?_
  exact blames_choice (by decide) (fun _ _ => blames_printStatement) blames_expressionStatement

/-! Where the cursor is left. -/

/-- A run over tokens with the property that ends with a semicolon, or gives up in front of one. -/
structure Outcome.Closes (P : Token → Prop) (c : Cursor) (o : Outcome α) : Prop where
  stopped : ∀ s, o.result = .error s → c.Reaches P o.cursor
  passed : ∀ a, o.result = .ok a → ∃ pos semicolon, semicolon.kind = .semicolon ∧
    o.cursor.pos = pos + 1 ∧ c.Reaches P ⟨pos, semicolon :: o.cursor.ahead⟩

theorem Outcome.Closes.of_reaches {P Q : Token → Prop} {c c' : Cursor} {o : Outcome α}
    (h : o.Closes P c') (hPQ : ∀ t, P t → Q t) (hc : c.Reaches Q c') : o.Closes Q c := by
  refine ⟨fun s hs => hc.trans ((h.stopped s hs).mono hPQ), fun a ha => ?_⟩
  obtain ⟨pos, semicolon, hkind, hpos, hreaches⟩ := h.passed a ha
  exact ⟨pos, semicolon, hkind, hpos, hc.trans (hreaches.mono hPQ)⟩

def Parse.Closes (p : Parse α) : Prop :=
  ∀ c, (p c).Closes InExpression c

theorem Parse.Moves.bind_closes {n : Nat} {p : Parse α} {f : α → Parse β}
    (hp : p.Moves InExpression n) (hf : ∀ a, (f a).Closes) : (p >>= f).Closes := by
  intro c
  cases hr : (p c).result with
  | error s =>
    rw [bind_of_error hr]
    exact ⟨fun _ _ => (hp c).reaches, fun a ha => by cases ha⟩
  | ok a =>
    rw [bind_of_ok hr]
    obtain ⟨hstopped, hpassed⟩ := (hf a (p c).cursor).of_reaches (fun _ h => h) (hp c).reaches
    exact ⟨hstopped, hpassed⟩

theorem closes_semicolon (problem : Problem) (a : α) :
    (consume .semicolon problem >>= fun _ => Pure.pure a).Closes := by
  rintro ⟨pos, _ | ⟨t, rest⟩⟩
  · exact ⟨fun _ _ => .refl _, fun a ha => by cases ha⟩
  by_cases ht : t.kind = .semicolon
  · rw [bind_of_silent (consume_of_kind ht (by decide) problem pos rest), pure_apply]
    exact ⟨fun s hs => (by cases hs), fun _ _ => ⟨pos, t, ht, rfl, .refl _⟩⟩
  · have hraise : consume .semicolon problem ⟨pos, t :: rest⟩ =
        ⟨.error (.raised ⟨pos, t, problem⟩), ⟨pos, t :: rest⟩, [⟨pos, t, problem⟩]⟩ :=
      accept_bind_of_not (by simp [ht]) pos rest
    rw [bind_of_error (by rw [hraise]), hraise]
    exact ⟨fun _ _ => .refl _, fun a ha => by cases ha⟩

theorem moves_accept {kinds : List TokenKind} (h : kinds ⊆ expressionKinds) :
    (accept kinds).Moves InExpression 0 := by
  have hbind : (accept kinds >>= Pure.pure).Moves InExpression 0 :=
    moves_accept_bind (Nat.zero_le 1) (fun t ht => h ht) (fun t _ => moves_pure _) (moves_pure _)
  intro c
  rw [← show (accept kinds >>= Pure.pure) c = accept kinds c by
    cases hr : (accept kinds c).result with
    | ok a => rw [bind_of_ok hr, pure_apply, List.append_nil, ← hr]
    | error s => rw [bind_of_error hr, ← hr]]
  exact hbind c

theorem moves_expression : expression.Moves InExpression 1 :=
  fun c => (expression_moves _).1 c

theorem closes_expressionStatement : expressionStatement.Closes :=
  moves_expression.bind_closes fun _ => closes_semicolon _ _

theorem closes_printStatement : printStatement.Closes :=
  moves_expression.bind_closes fun _ => closes_semicolon _ _

theorem closes_varDeclaration : varDeclaration.Closes := by
  have hname : (consume .identifier .expectName).Moves InExpression 1 :=
    moves_consume _ fun t ht => by simp [InExpression, expressionKinds, ht]
  have hequals : (accept [.equal]).Moves InExpression 0 := moves_accept (by simp [expressionKinds])
  refine hname.bind_closes fun name => hequals.bind_closes fun t => ?_
  cases t with
  | none => exact closes_semicolon _ _
  | some equals => exact moves_expression.bind_closes fun _ => closes_semicolon _ _

/-- Behind the word `var` or `print` a declaration keeps to the tokens of expressions. -/
theorem simpleDeclaration_closes_of_word {t : Token} (ht : t.kind ∈ [TokenKind.varWord, .printWord])
    (pos : Nat) (rest : List Token) :
    (simpleDeclaration ⟨pos, t :: rest⟩).Closes InExpression ⟨pos + 1, rest⟩ := by
  rcases List.mem_pair.mp ht with hvar | hprint
  · rw [simpleDeclaration_of_var hvar]
    exact closes_varDeclaration _
  · rw [simpleDeclaration_of_print hprint]
    exact closes_printStatement _

theorem simpleDeclaration_closes_of_not {t : Token} (ht : t.kind ∉ [TokenKind.varWord, .printWord])
    (pos : Nat) (rest : List Token) :
    (simpleDeclaration ⟨pos, t :: rest⟩).Closes InExpression ⟨pos, t :: rest⟩ := by
  simp only [List.mem_cons, List.not_mem_nil, or_false, not_or] at ht
  rw [simpleDeclaration_of_not ht.1 ht.2]
  exact closes_expressionStatement _

/-- The tokens that a simple declaration may hold in front of its semicolon. -/
def InSimple (t : Token) : Prop :=
  t.kind ∈ [TokenKind.varWord, .printWord] ∨ InExpression t

theorem not_inSimple_of_kind {t : Token}
    (h : t.kind ∈ [TokenKind.semicolon, .leftBrace, .rightBrace, .eof]) : ¬ InSimple t := by
  simp only [InSimple, InExpression]
  revert h
  cases t.kind <;> decide

theorem simpleDeclaration_closes (pos : Nat) (t : Token) (rest : List Token) :
    (simpleDeclaration ⟨pos, t :: rest⟩).Closes InSimple ⟨pos, t :: rest⟩ := by
  have hinside : ∀ t, InExpression t → InSimple t := fun _ h => .inr h
  by_cases ht : t.kind ∈ [TokenKind.varWord, .printWord]
  · exact (simpleDeclaration_closes_of_word ht pos rest).of_reaches hinside (.step (.inl ht) pos)
  · exact (simpleDeclaration_closes_of_not ht pos rest).of_reaches hinside (.refl _)

/-- A token that may not be passed over is still ahead, with some of the tokens in front of it. -/
theorem Cursor.Reaches.split {P : Token → Prop} {pos : Nat} {u r : List Token} {x : Token} {c : Cursor}
    (h : Cursor.Reaches P ⟨pos, u ++ x :: r⟩ c) (hx : ¬ P x) :
    ∃ w v, u = w ++ v ∧ c = ⟨pos + w.length, v ++ x :: r⟩ := by
  obtain ⟨used, hused, hahead, hpos⟩ := h
  obtain ⟨cpos, ahead⟩ := c
  dsimp only at hahead hpos
  subst hpos
  rcases List.append_eq_append_iff.mp hahead with ⟨v, hu, hv⟩ | ⟨v, hu, hv⟩
  · cases v with
    | nil => exact ⟨u, [], by simp, by simp_all⟩
    | cons y v =>
      cases hv
      exact absurd (hused x (by simp [hu])) hx
  · exact ⟨used, v, hu, by rw [hv]⟩

section

variable {pos : Nat} {t x : Token} {rest u r : List Token}

/-- A simple declaration that is parsed ends with the first semicolon. -/
theorem simpleDeclaration_passed (hahead : t :: rest = u ++ x :: r)
    (hu : ∀ t ∈ u, t.kind ≠ .semicolon) (hx : ¬ InSimple x) {s : Stmt}
    (h : (simpleDeclaration ⟨pos, t :: rest⟩).result = .ok s) :
    (simpleDeclaration ⟨pos, t :: rest⟩).cursor = ⟨pos + u.length + 1, r⟩ := by
  obtain ⟨cpos, semicolon, hkind, hpos, hreaches⟩ :=
    (simpleDeclaration_closes pos t rest).passed s h
  generalize (simpleDeclaration ⟨pos, t :: rest⟩).cursor = c at hpos hreaches
  rw [hahead] at hreaches
  obtain ⟨w, v, rfl, hc⟩ := hreaches.split hx
  obtain ⟨cpos', ahead⟩ := c
  cases v with
  | nil =>
    cases hc
    dsimp only at hpos
    rw [hpos, List.append_nil]
  | cons y v =>
    cases hc
    exact absurd hkind (hu semicolon (by simp))

/-- A simple declaration is given up in front of a token that it may not hold, or at it. -/
theorem simpleDeclaration_stopped (hahead : t :: rest = u ++ x :: r) (hx : ¬ InSimple x) {s : Stop}
    (h : (simpleDeclaration ⟨pos, t :: rest⟩).result = .error s) :
    ∃ w v, u = w ++ v ∧
      (simpleDeclaration ⟨pos, t :: rest⟩).cursor = ⟨pos + w.length, v ++ x :: r⟩ := by
  have hreaches := (simpleDeclaration_closes pos t rest).stopped s h
  generalize (simpleDeclaration ⟨pos, t :: rest⟩).cursor = c at hreaches
  rw [hahead] at hreaches
  exact hreaches.split hx

end

/-! What follows the semicolon does not matter. -/

section

variable {m : Relocation} {semicolon : Token} {r r' : List Token}

theorem expression_ne_pastEnd {c : Cursor} (hc : HasEnd c.ahead) :
    (expression c).result ≠ .error .pastEnd :=
  (sated_expression c).result_ne (fun c => expression_moves_notEnd c) hc

theorem expression_transports_upTo (hkind : semicolon.kind = .semicolon) (hr : HasEnd r)
    (hr' : HasEnd r') :
    m.Transports (m.UpTo (semicolon :: r) (m.token semicolon :: r'))
      (m.UpTo (semicolon :: r) (m.token semicolon :: r'))
      (m.UpTo (semicolon :: r) (m.token semicolon :: r')) m.expr expression expression := by
  intro c c' hc
  obtain ⟨-, u, hu, hu'⟩ := id hc
  have hend : HasEnd c.ahead := hu ▸ (hr.cons semicolon).append u
  have hend' : HasEnd c'.ahead := hu' ▸ (hr'.cons (m.token semicolon)).append (u.map m.token)
  have hextended : ∀ n, (assignmentFuel n).ExtendedBy (assignmentFuel (n + 1)) :=
    fun n => (expression_extendedBy n).1
  -- both runs with the fuel of the longer one
  obtain ⟨n, hn, hn'⟩ : ∃ n, 12 * c.ahead.length + 12 ≤ n ∧ 12 * c'.ahead.length + 12 ≤ n :=
    ⟨_, Nat.le_max_left _ _, Nat.le_max_right _ _⟩
  have hleft : expression c = assignmentFuel n c :=
    fueled_eq_of_le hextended hn (expression_ne_pastEnd hend)
  have hright : expression c' = assignmentFuel n c' :=
    fueled_eq_of_le hextended hn' (expression_ne_pastEnd hend')
  have hs := Relocation.steps_upTo (m := m) (not_inSimple_of_kind (t := semicolon) (by simp [hkind])) r r'
  have hcarry := (expression_transports hs (fun _ h => .inr h) n).1 c c' hc
  rw [← hleft, ← hright] at hcarry
  exact hcarry

/-- Simple declarations are parsed alike if they are alike up to the first semicolon. -/
theorem simpleDeclaration_transports (hkind : semicolon.kind = .semicolon) (hr : HasEnd r)
    (hr' : HasEnd r') :
    m.Transports (m.UpTo (semicolon :: r) (m.token semicolon :: r'))
      (m.UpTo (semicolon :: r) (m.token semicolon :: r')) (m.UpTo r r')
      m.stmt simpleDeclaration simpleDeclaration := by
  have hs := Relocation.steps_upTo (m := m) (not_inSimple_of_kind (t := semicolon) (by simp [hkind])) r r'
  have hend := Relocation.steps_upTo_tail (m := m) semicolon r r'
  have he := expression_transports_upTo (m := m) hkind hr hr'
  have hinside : ∀ t, InExpression t → InSimple t := fun _ h => .inr h
  refine Relocation.transports_accept_bind hs (fun t ht => .inl (by simp_all)) ?_ ?_
  · intro t pos rest c' _ hc
    exact varDeclaration_transports hs hinside hend he _ _ hc
  · refine Relocation.transports_accept_bind hs (fun t ht => .inl (by simp_all)) ?_
      (expressionStatement_transports hend he)
    intro t pos rest c' _ hc
    exact printStatement_transports hend he _ _ hc

end

end LoxLang.Grammar
