import LoxLang.Grammar.Statement

/-!
How runs of parsers move the cursor. Whatever its result, a parser only passes over tokens that its
construct may hold, a syntax error blames the token at which the cursor stands, and a construct that
was parsed took at least one token.
-/
namespace LoxLang.Grammar

variable {α β : Type} {P Q : Token → Prop}

/-- The cursor gets from `c` to `c'` over tokens with the property. -/
def Cursor.Reaches (P : Token → Prop) (c c' : Cursor) : Prop :=
  ∃ used, (∀ t ∈ used, P t) ∧ c.ahead = used ++ c'.ahead ∧ c'.pos = c.pos + used.length

namespace Cursor.Reaches

theorem refl (c : Cursor) : c.Reaches P c :=
  ⟨[], by simp, rfl, rfl⟩

theorem trans {a b c : Cursor} (hab : a.Reaches P b) (hbc : b.Reaches P c) : a.Reaches P c := by
  obtain ⟨u, hu, hua, hup⟩ := hab
  obtain ⟨v, hv, hva, hvp⟩ := hbc
  refine ⟨u ++ v, ?_, by rw [hua, hva, List.append_assoc], ?_⟩
  · intro t ht
    rcases List.mem_append.mp ht with h | h
    · exact hu t h
    · exact hv t h
  · rw [hvp, hup, List.length_append]
    omega

theorem mono {a b : Cursor} (hPQ : ∀ t, P t → Q t) (h : a.Reaches P b) : a.Reaches Q b := by
  obtain ⟨u, hu, hua, hup⟩ := h
  exact ⟨u, fun t ht => hPQ t (hu t ht), hua, hup⟩

theorem step {t : Token} {rest : List Token} (ht : P t) (pos : Nat) :
    Reaches P ⟨pos, t :: rest⟩ ⟨pos + 1, rest⟩ :=
  ⟨[t], by simpa using ht, rfl, rfl⟩

theorem pos_le {a b : Cursor} (h : a.Reaches P b) : a.pos ≤ b.pos := by
  obtain ⟨u, -, -, hup⟩ := h
  omega

/-- What the position gains, the tokens ahead lose. -/
theorem pos_add_length {a b : Cursor} (h : a.Reaches P b) :
    b.pos + b.ahead.length = a.pos + a.ahead.length := by
  obtain ⟨u, -, hua, hup⟩ := h
  rw [hua, hup, List.length_append]
  omega

theorem eq_of_pos_eq {a b : Cursor} (h : a.Reaches P b) (hp : a.pos = b.pos) : a = b := by
  obtain ⟨u, -, hua, hup⟩ := h
  have hu : u = [] := List.length_eq_zero_iff.mp (by omega)
  cases a
  cases b
  simp_all

/-- A token that the cursor may not pass over is still ahead. -/
theorem mem_of_not {a b : Cursor} (h : a.Reaches P b) {t : Token} (ht : t ∈ a.ahead) (hP : ¬ P t) :
    t ∈ b.ahead := by
  obtain ⟨u, hu, hua, -⟩ := h
  rw [hua] at ht
  rcases List.mem_append.mp ht with h | h
  · exact absurd (hu t h) hP
  · exact h

theorem mem {a b : Cursor} (h : a.Reaches P b) {t : Token} (ht : t ∈ b.ahead) : t ∈ a.ahead := by
  obtain ⟨u, -, hua, -⟩ := h
  rw [hua]
  exact List.mem_append_right u ht

end Cursor.Reaches

/-- What every run keeps to: the cursor passes over tokens with the property only, a syntax error
blames the token at the cursor in the last of the complaints, and a result took `n` tokens or more. -/
structure Outcome.Follows (P : Token → Prop) (n : Nat) (c : Cursor) (o : Outcome α) : Prop where
  reaches : c.Reaches P o.cursor
  raised : ∀ b, o.result = .error (.raised b) →
    b.pos = o.cursor.pos ∧ o.cursor.ahead.head? = some b.token ∧
      ∃ earlier, o.complaints = earlier ++ [b]
  taken : ∀ a, o.result = .ok a → c.pos + n ≤ o.cursor.pos

namespace Parse

variable {n : Nat} {p : Parse α} {f : α → Parse β} {c : Cursor}

theorem bind_of_ok {a : α} (h : (p c).result = .ok a) :
    (p >>= f) c = ⟨(f a (p c).cursor).result, (f a (p c).cursor).cursor,
      (p c).complaints ++ (f a (p c).cursor).complaints⟩ := by
  change Parse.bind p f c = _
  simp only [Parse.bind, h]

theorem bind_of_error {stop : Stop} (h : (p c).result = .error stop) :
    (p >>= f) c = ⟨.error stop, (p c).cursor, (p c).complaints⟩ := by
  change Parse.bind p f c = _
  simp only [Parse.bind, h]

section accept

variable {kinds : List TokenKind} {g : Option Token → Parse β} {t : Token}

theorem accept_bind_of_mem (hend : t.kind ≠ .eof) (hk : t.kind ∈ kinds) (pos : Nat)
    (rest : List Token) : (accept kinds >>= g) ⟨pos, t :: rest⟩ = g (some t) ⟨pos + 1, rest⟩ := by
  change Parse.bind (accept kinds) g ⟨pos, t :: rest⟩ = _
  simp only [Parse.bind, accept, if_pos (And.intro hend hk), List.nil_append]

theorem accept_bind_of_not (h : ¬ (t.kind ≠ .eof ∧ t.kind ∈ kinds)) (pos : Nat)
    (rest : List Token) : (accept kinds >>= g) ⟨pos, t :: rest⟩ = g none ⟨pos, t :: rest⟩ := by
  change Parse.bind (accept kinds) g ⟨pos, t :: rest⟩ = _
  simp only [Parse.bind, accept, if_neg h, List.nil_append]

end accept

/-- Every run of the parser keeps to the tokens with the property and takes `n` of them for a result. -/
def Moves (P : Token → Prop) (n : Nat) (p : Parse α) : Prop :=
  ∀ c, (p c).Follows P n c

theorem Moves.mono (hPQ : ∀ t, P t → Q t) (h : p.Moves P n) : p.Moves Q n :=
  fun c => ⟨(h c).reaches.mono hPQ, (h c).raised, (h c).taken⟩

theorem Moves.weaken (h : p.Moves P n) : p.Moves P 0 :=
  fun c => ⟨(h c).reaches, (h c).raised, fun _ _ => (h c).reaches.pos_le⟩

theorem Moves.bind (hp : p.Moves P n) (hf : ∀ a, (f a).Moves P 0) : (p >>= f).Moves P n := by
  intro c
  cases hr : (p c).result with
  | error stop =>
    rw [bind_of_error hr]
    refine ⟨(hp c).reaches, ?_, by simp⟩
    rintro b ⟨⟩
    exact (hp c).raised b hr
  | ok a =>
    rw [bind_of_ok hr]
    have hfa := hf a (p c).cursor
    refine ⟨(hp c).reaches.trans hfa.reaches, ?_, ?_⟩
    · intro b hb
      obtain ⟨hpos, htok, earlier, he⟩ := hfa.raised b hb
      exact ⟨hpos, htok, (p c).complaints ++ earlier, by rw [he, List.append_assoc]⟩
    · intro b hb
      exact Nat.le_trans ((hp c).taken a hr) hfa.reaches.pos_le

theorem Moves.then (hp : p.Moves P 0) (hf : ∀ a, (f a).Moves P n) : (p >>= f).Moves P n := by
  have hb := hp.bind fun a => (hf a).weaken
  intro c
  refine ⟨(hb c).reaches, (hb c).raised, ?_⟩
  intro b hr
  cases hp' : (p c).result with
  | error stop => simp [bind_of_error hp'] at hr
  | ok a =>
    rw [bind_of_ok hp'] at hr ⊢
    have hpos := (hp c).reaches.pos_le
    have htaken := (hf a (p c).cursor).taken b hr
    exact Nat.le_trans (Nat.add_le_add_right hpos n) htaken

theorem moves_of_cursor_eq (hc : ∀ c, (p c).cursor = c)
    (hr : ∀ c b, (p c).result ≠ .error (.raised b)) : p.Moves P 0 := by
  intro c
  refine ⟨?_, fun b hb => absurd hb (hr c b), fun _ _ => ?_⟩
  · rw [hc c]
    exact .refl c
  · rw [hc c]
    exact Nat.le_refl _

theorem moves_pure (a : α) : (Pure.pure a : Parse α).Moves P 0 :=
  moves_of_cursor_eq (fun _ => rfl) fun _ _ h => by cases h

theorem moves_position : position.Moves P 0 :=
  moves_of_cursor_eq (fun _ => rfl) fun _ _ h => by cases h

theorem moves_complain (blame : Complaint) : (complain blame).Moves P 0 :=
  moves_of_cursor_eq (fun _ => rfl) fun _ _ h => by cases h

theorem moves_peek : peek.Moves P 0 := by
  apply moves_of_cursor_eq
  · rintro ⟨pos, _ | ⟨t, rest⟩⟩ <;> rfl
  · rintro ⟨pos, _ | ⟨t, rest⟩⟩ b h <;> cases h

/-- A parser that never has a result may be said to take any number of tokens for it. -/
theorem moves_pastEnd : (pastEnd : Parse α).Moves P n :=
  fun c => ⟨.refl c, by simp [pastEnd], by simp [pastEnd]⟩

theorem moves_raiseHere (problem : Problem) : (raiseHere problem : Parse α).Moves P n := by
  rintro ⟨pos, _ | ⟨t, rest⟩⟩
  · exact moves_pastEnd _
  · refine ⟨.refl _, ?_, ?_⟩
    · rintro b ⟨⟩
      exact ⟨rfl, rfl, [], rfl⟩
    · rintro a ⟨⟩

/-- A choice by the token at the cursor takes a token if the alternative without one does. -/
theorem moves_accept_bind {kinds : List TokenKind} {g : Option Token → Parse β} (hn1 : n ≤ 1)
    (h : ∀ t : Token, t.kind ∈ kinds → P t) (hs : ∀ t, t.kind ∈ kinds → (g (some t)).Moves P 0)
    (hn : (g none).Moves P n) : (accept kinds >>= g).Moves P n := by
  rintro ⟨pos, _ | ⟨t, rest⟩⟩
  · exact moves_pastEnd _
  by_cases ht : t.kind ≠ .eof ∧ t.kind ∈ kinds
  · rw [accept_bind_of_mem ht.1 ht.2]
    have hg := hs t ht.2 ⟨pos + 1, rest⟩
    refine ⟨(Cursor.Reaches.step (h t ht.2) pos).trans hg.reaches, hg.raised, fun a _ => ?_⟩
    exact Nat.le_trans (Nat.add_le_add_left hn1 pos) hg.reaches.pos_le
  · rw [accept_bind_of_not ht]
    exact hn _

theorem moves_consume {kind : TokenKind} (problem : Problem)
    (h : ∀ t : Token, t.kind = kind → P t) : (consume kind problem).Moves P 1 :=
  moves_accept_bind (Nat.le_refl 1) (fun t ht => h t (List.mem_singleton.mp ht))
    (fun t _ => moves_pure t) (moves_raiseHere problem)

end Parse

open Parse

/-- The kinds of tokens that an expression may hold. -/
def expressionKinds : List TokenKind :=
  [.falseWord, .trueWord, .nilWord, .number, .string, .identifier, .leftParen, .rightParen,
   .bang, .minus, .plus, .slash, .star, .bangEqual, .equalEqual, .greater, .greaterEqual, .less,
   .lessEqual, .equal]

def InExpression (t : Token) : Prop :=
  t.kind ∈ expressionKinds

private theorem inExpression_of_mem {kinds : List TokenKind} (h : kinds ⊆ expressionKinds)
    (t : Token) (ht : t.kind ∈ kinds) : InExpression t :=
  h ht

theorem Level.operators_subset (level : Level) : level.operators ⊆ expressionKinds := by
  cases level <;> simp [Level.operators, expressionKinds]

/-- The parsers of expressions keep to the tokens of expressions; all but a chain take one at least. -/
theorem expression_moves (fuel : Nat) :
    (assignmentFuel fuel).Moves InExpression 1 ∧
    (∀ level, (levelFuel fuel level).Moves InExpression 1) ∧
    (∀ level, (operandFuel fuel level).Moves InExpression 1) ∧
    (∀ level left, (chainFuel fuel level left).Moves InExpression 0) ∧
    (unaryFuel fuel).Moves InExpression 1 ∧ (primaryFuel fuel).Moves InExpression 1 := by
  induction fuel with
  | zero =>
    exact ⟨moves_pastEnd, fun _ => moves_pastEnd, fun _ => moves_pastEnd,
      fun _ _ => moves_pastEnd, moves_pastEnd, moves_pastEnd⟩
  | succ fuel ih =>
    obtain ⟨ha, hl, ho, hc, hu, hp⟩ := ih
    refine ⟨?_, ?_, ?_, ?_, ?_, ?_⟩
    · refine (hl .equality).bind fun left => ?_
      refine moves_accept_bind (Nat.zero_le 1) (inExpression_of_mem (by simp [expressionKinds]))
        (fun equals _ => ?_) (moves_pure left)
      refine moves_position.bind fun pos => ha.weaken.bind fun value => ?_
      split
      · exact moves_pure _
      · exact (moves_complain _).bind fun _ => moves_pure _
    · exact fun level => (ho level).bind fun first => hc level first
    · intro level
      unfold operandFuel
      cases level.tighter with
      | some tighter => exact hl tighter
      | none => exact hu
    · intro level left
      exact moves_accept_bind (Nat.zero_le 1) (inExpression_of_mem level.operators_subset)
        (fun operator _ => (ho level).weaken.bind fun right => hc level _) (moves_pure left)
    · exact moves_accept_bind (Nat.le_refl 1) (inExpression_of_mem (by simp [expressionKinds]))
        (fun operator _ => hu.weaken.bind fun right => moves_pure _) hp
    · refine moves_accept_bind (Nat.le_refl 1) (inExpression_of_mem (by simp [expressionKinds]))
        (fun t _ => ?_) (moves_raiseHere _)
      dsimp only
      split
      case h_5 =>
        refine ha.weaken.bind fun inner => Moves.bind ?_ fun _ => moves_pure _
        exact (moves_consume _ fun t ht => by simp [InExpression, expressionKinds, ht]).weaken
      all_goals exact moves_pure _

/-- No parser passes over the end marker. -/
def NotEnd (t : Token) : Prop :=
  t.kind ≠ .eof

theorem notEnd_of_inExpression (t : Token) (h : InExpression t) : NotEnd t := by
  intro he
  simp [InExpression, expressionKinds, he] at h

theorem notEnd_of_mem {kinds : List TokenKind} (h : .eof ∉ kinds) (t : Token)
    (ht : t.kind ∈ kinds) : NotEnd t :=
  fun he => h (he ▸ ht)

theorem expression_moves_notEnd : expression.Moves NotEnd 1 :=
  fun c => ((expression_moves _).1.mono notEnd_of_inExpression) c

theorem skipTo_reaches (last : Token) (pos : Nat) (ts : List Token) :
    Cursor.Reaches NotEnd ⟨pos, ts⟩ (skipTo last pos ts).cursor := by
  induction ts generalizing last pos with
  | nil => exact .refl _
  | cons t rest ih =>
    unfold skipTo
    split
    · exact .refl _
    · next h => exact (Cursor.Reaches.step (fun he => h (.inl he)) pos).trans (ih t (pos + 1))

theorem skipTo_not_raised (last : Token) (pos : Nat) (ts : List Token) (b : Complaint) :
    (skipTo last pos ts).result ≠ .error (.raised b) := by
  induction ts generalizing last pos with
  | nil => simp [skipTo]
  | cons t rest ih =>
    unfold skipTo
    split
    · simp
    · exact ih t (pos + 1)

theorem synchronize_not_raised (c : Cursor) (b : Complaint) :
    (synchronize c).result ≠ .error (.raised b) := by
  obtain ⟨pos, _ | ⟨t, rest⟩⟩ := c
  · simp [synchronize]
  · simp only [synchronize]
    split
    · simp
    · exact skipTo_not_raised _ _ _ b

theorem moves_synchronize : synchronize.Moves NotEnd 0 := by
  intro c
  have hr : c.Reaches NotEnd (synchronize c).cursor := by
    obtain ⟨pos, _ | ⟨t, rest⟩⟩ := c
    · exact .refl _
    · simp only [synchronize]
      split
      · exact .refl _
      · next ht => exact (Cursor.Reaches.step ht pos).trans (skipTo_reaches t (pos + 1) rest)
  exact ⟨hr, fun b hb => absurd hb (synchronize_not_raised c b), fun _ _ => hr.pos_le⟩

/-- In front of a token other than the end marker, recovery passes over that token. -/
theorem synchronize_taken {c : Cursor} {t : Token} (hc : c.ahead.head? = some t) (ht : NotEnd t) :
    c.pos + 1 ≤ (synchronize c).cursor.pos := by
  obtain ⟨pos, _ | ⟨t', rest⟩⟩ := c
  · cases hc
  · cases hc
    simp only [synchronize, if_neg ht]
    exact (skipTo_reaches _ _ _).pos_le

theorem recovering_of_ok {p : Parse α} {c : Cursor} {a : α} (h : (p c).result = .ok a) :
    recovering p c = ⟨.ok (some a), (p c).cursor, (p c).complaints⟩ := by
  simp only [recovering, h]

theorem recovering_of_raised {p : Parse α} {c : Cursor} {b : Complaint}
    (h : (p c).result = .error (.raised b)) :
    recovering p c = ⟨(synchronize (p c).cursor).result.map fun _ => none,
      (synchronize (p c).cursor).cursor,
      (p c).complaints ++ (synchronize (p c).cursor).complaints⟩ := by
  simp only [recovering, h]

theorem recovering_of_pastEnd {p : Parse α} {c : Cursor} (h : (p c).result = .error .pastEnd) :
    recovering p c = ⟨.error .pastEnd, (p c).cursor, (p c).complaints⟩ := by
  simp only [recovering, h]

theorem recovering_not_raised (p : Parse α) (c : Cursor) (b : Complaint) :
    (recovering p c).result ≠ .error (.raised b) := by
  cases hr : (p c).result with
  | ok a => simp [recovering_of_ok hr]
  | error stop =>
    cases stop with
    | pastEnd => simp [recovering_of_pastEnd hr]
    | raised b' =>
      rw [recovering_of_raised hr]
      cases hs : (synchronize (p c).cursor).result with
      | ok _ => simp [Except.map]
      | error stop =>
        intro h
        have hstop : stop = .raised b := by simpa [Except.map] using h
        exact synchronize_not_raised _ b (hstop ▸ hs)

theorem moves_recovering {p : Parse α} {n : Nat} (hp : p.Moves NotEnd n) :
    (recovering p).Moves NotEnd 0 := by
  intro c
  have h := hp c
  suffices hr : c.Reaches NotEnd (recovering p c).cursor from
    ⟨hr, fun b hb => absurd hb (recovering_not_raised p c b), fun _ _ => hr.pos_le⟩
  cases hr : (p c).result with
  | ok a =>
    rw [recovering_of_ok hr]
    exact h.reaches
  | error stop =>
    cases stop with
    | pastEnd =>
      rw [recovering_of_pastEnd hr]
      exact h.reaches
    | raised b =>
      rw [recovering_of_raised hr]
      exact h.reaches.trans (moves_synchronize (p c).cursor).reaches

/-- In front of a token other than the end marker, a construct takes a token even where it has to be
dropped. -/
theorem recovering_taken {p : Parse α} (hp : p.Moves NotEnd 1) {c : Cursor} {t : Token}
    (hc : c.ahead.head? = some t) (ht : NotEnd t) {a : Option α}
    (ha : (recovering p c).result = .ok a) : c.pos + 1 ≤ (recovering p c).cursor.pos := by
  have h := hp c
  cases hr : (p c).result with
  | ok a' =>
    rw [recovering_of_ok hr]
    exact h.taken a' hr
  | error stop =>
    cases stop with
    | pastEnd => simp [recovering_of_pastEnd hr] at ha
    | raised b =>
      rw [recovering_of_raised hr]
      rcases Nat.lt_or_eq_of_le h.reaches.pos_le with hlt | heq
      · exact Nat.le_trans hlt (moves_synchronize _).reaches.pos_le
      · rw [← h.reaches.eq_of_pos_eq heq]
        exact synchronize_taken hc ht

theorem moves_varDeclaration : varDeclaration.Moves NotEnd 1 := by
  have hsemi : (consume .semicolon .expectSemicolonAfterDeclaration).Moves NotEnd 1 :=
    moves_consume _ fun t ht => by simp [NotEnd, ht]
  refine (moves_consume _ fun t ht => by simp [NotEnd, ht]).bind fun name => ?_
  refine moves_accept_bind (Nat.zero_le 1) (notEnd_of_mem (by decide)) (fun equals _ => ?_) ?_
  · exact expression_moves_notEnd.weaken.bind fun value => hsemi.weaken.bind fun _ => moves_pure _
  · exact hsemi.weaken.bind fun _ => moves_pure _

theorem moves_printStatement : printStatement.Moves NotEnd 1 :=
  expression_moves_notEnd.bind fun _ =>
    (moves_consume _ fun t ht => by simp [NotEnd, ht]).weaken.bind fun _ => moves_pure _

theorem moves_expressionStatement : expressionStatement.Moves NotEnd 1 :=
  expression_moves_notEnd.bind fun _ =>
    (moves_consume _ fun t ht => by simp [NotEnd, ht]).weaken.bind fun _ => moves_pure _

/-- A declaration without its recovery. -/
theorem declarationBody_moves {fuel : Nat} (h : (statementFuel fuel).Moves NotEnd 1) :
    Moves NotEnd 1 (do
      match ← accept [.varWord] with
      | some _ => varDeclaration
      | none => statementFuel fuel) :=
  moves_accept_bind (Nat.le_refl 1) (notEnd_of_mem (by decide))
    (fun _ _ => moves_varDeclaration.weaken) h

theorem statement_moves (fuel : Nat) :
    (declarationFuel fuel).Moves NotEnd 0 ∧ (statementFuel fuel).Moves NotEnd 1 ∧
    (blockFuel fuel).Moves NotEnd 1 := by
  induction fuel with
  | zero => exact ⟨moves_pastEnd, moves_pastEnd, moves_pastEnd⟩
  | succ fuel ih =>
    obtain ⟨hd, hs, hb⟩ := ih
    refine ⟨moves_recovering (declarationBody_moves hs), ?_, ?_⟩
    · refine moves_accept_bind (Nat.le_refl 1) (notEnd_of_mem (by decide)) (fun t _ => ?_)
        moves_expressionStatement
      dsimp only
      split
      · exact moves_printStatement.weaken
      · exact hb.weaken.bind fun _ => moves_pure _
    · refine moves_peek.then fun t => ?_
      split
      · exact (moves_consume _ fun t ht => by simp [NotEnd, ht]).bind fun _ => moves_pure _
      · exact hd.then fun first => hb.bind fun rest => moves_pure _

theorem declaration_taken {fuel : Nat} {c : Cursor} {t : Token} (hc : c.ahead.head? = some t)
    (ht : NotEnd t) {a : Option Stmt} (ha : (declarationFuel fuel c).result = .ok a) :
    c.pos + 1 ≤ (declarationFuel fuel c).cursor.pos := by
  cases fuel with
  | zero => cases ha
  | succ fuel => exact recovering_taken (declarationBody_moves (statement_moves fuel).2.1) hc ht ha

theorem program_moves (fuel : Nat) : (programFuel fuel).Moves NotEnd 0 := by
  induction fuel with
  | zero => exact moves_pastEnd
  | succ fuel ih =>
    refine (moves_peek.bind fun t => moves_pure _).bind fun atEnd => ?_
    split
    · exact moves_pure _
    · exact (statement_moves fuel).1.bind fun first => ih.bind fun rest => moves_pure _

end LoxLang.Grammar
