import LoxLang.Proofs.Grammar.Completeness

/-!
Which tokens complaints blame. Each blames the token at its own position, which is a token that the
parser started in front of and went up to. Where an expression or a statement without braces was
parsed, the blamed tokens are behind the cursor: only errors that stop a parser blame the token at
which it stands.
-/
namespace LoxLang.Grammar

open Parse

variable {α β : Type}

/-- The complaint blames the token ahead of the cursor that stands at its position. -/
def Cursor.Holds (c : Cursor) (b : Complaint) : Prop :=
  c.pos ≤ b.pos ∧ c.ahead[b.pos - c.pos]? = some b.token

theorem Cursor.holds_head (pos : Nat) (t : Token) (rest : List Token) (problem : Problem) :
    Cursor.Holds ⟨pos, t :: rest⟩ ⟨pos, t, problem⟩ :=
  ⟨Nat.le_refl pos, by simp⟩

/-- What is ahead of a place is ahead of every place in front of it. -/
theorem Cursor.Reaches.holds {P : Token → Prop} {c c' : Cursor} {b : Complaint}
    (h : c.Reaches P c') (hb : c'.Holds b) : c.Holds b := by
  obtain ⟨used, -, hahead, hpos⟩ := h
  obtain ⟨hle, hget⟩ := hb
  refine ⟨by omega, ?_⟩
  rw [hahead, List.getElem?_append_right (by omega), ← hget]
  congr 1
  omega

/-- What holds of the complaints of a run from `c` within a parser that was started at `start`: they
blame tokens up to the cursor, and after a result at least `n` tokens before it. -/
structure Outcome.Blames (n : Nat) (start c : Cursor) (o : Outcome α) : Prop where
  reaches : c.Reaches NotEnd o.cursor
  holds : ∀ b ∈ o.complaints, start.Holds b
  le : ∀ b ∈ o.complaints, b.pos ≤ o.cursor.pos
  behind : ∀ a, o.result = .ok a → ∀ b ∈ o.complaints, b.pos + n ≤ o.cursor.pos

theorem Outcome.Blames.mono {m n : Nat} {start c : Cursor} {o : Outcome α}
    (h : o.Blames n start c) (hmn : m ≤ n) : o.Blames m start c :=
  ⟨h.reaches, h.holds, h.le, fun a ha b hb =>
    Nat.le_trans (Nat.add_le_add_left hmn b.pos) (h.behind a ha b hb)⟩

theorem Outcome.blames_of_silent {n : Nat} {start c : Cursor} {o : Outcome α}
    (hreaches : c.Reaches NotEnd o.cursor) (hsilent : o.complaints = []) : o.Blames n start c := by
  refine ⟨hreaches, ?_, ?_, fun _ _ => ?_⟩ <;> simp [hsilent]

namespace Parse

/-- The complaints of every run, wherever the parser that it is a part of was started. -/
def Blames (n : Nat) (p : Parse α) : Prop :=
  ∀ start c : Cursor, start.Reaches NotEnd c → (p c).Blames n start c

variable {n : Nat}

theorem blames_bind {p : Parse α} {f : α → Parse β} {start c : Cursor}
    (hp : (p c).Blames n start c)
    (hf : ∀ a, (p c).result = .ok a → (f a (p c).cursor).Blames n start (p c).cursor) :
    ((p >>= f) c).Blames n start c := by
  cases hr : (p c).result with
  | error s =>
    rw [bind_of_error hr]
    exact ⟨hp.reaches, hp.holds, hp.le, fun a ha => by cases ha⟩
  | ok a =>
    have hfa := hf a hr
    have hle := hfa.reaches.pos_le
    rw [bind_of_ok hr]
    refine ⟨hp.reaches.trans hfa.reaches, ?_, ?_, ?_⟩
    · intro b hb
      rcases List.mem_append.mp hb with hb | hb
      · exact hp.holds b hb
      · exact hfa.holds b hb
    · intro b hb
      rcases List.mem_append.mp hb with hb | hb
      · exact Nat.le_trans (hp.le b hb) hle
      · exact hfa.le b hb
    · intro a' ha' b hb
      rcases List.mem_append.mp hb with hb | hb
      · exact Nat.le_trans (hp.behind a hr b hb) hle
      · exact hfa.behind a' ha' b hb

theorem Blames.bind {p : Parse α} {f : α → Parse β} (hp : p.Blames n) (hf : ∀ a, (f a).Blames n) :
    (p >>= f).Blames n :=
  fun start c h => blames_bind (hp start c h) fun a _ => hf a start _ (h.trans (hp start c h).reaches)

theorem Blames.mono {m : Nat} {p : Parse α} (hp : p.Blames n) (hmn : m ≤ n) : p.Blames m :=
  fun start c h => (hp start c h).mono hmn

theorem blames_pure (a : α) : (Pure.pure a : Parse α).Blames n :=
  fun _ c _ => Outcome.blames_of_silent (.refl c) rfl

theorem blames_pastEnd : (pastEnd : Parse α).Blames n :=
  fun _ c _ => Outcome.blames_of_silent (.refl c) rfl

theorem blames_peek : peek.Blames n := by
  rintro start ⟨pos, _ | ⟨t, rest⟩⟩ h <;> exact Outcome.blames_of_silent (.refl _) rfl

theorem blames_complain {blame : Complaint} {start c : Cursor} (hb : start.Holds blame)
    (hpos : blame.pos + n ≤ c.pos) : (complain blame c).Blames n start c := by
  refine ⟨.refl c, ?_, ?_, fun _ _ => ?_⟩ <;> intro b hmem <;> cases List.mem_singleton.mp hmem
  · exact hb
  · exact Nat.le_trans (Nat.le_add_right _ _) hpos
  · exact hpos

theorem blames_raiseHere (problem : Problem) : (raiseHere problem : Parse α).Blames n := by
  rintro start ⟨pos, _ | ⟨t, rest⟩⟩ h
  · exact blames_pastEnd start _ h
  · refine ⟨.refl _, ?_, ?_, by rintro a ⟨⟩⟩ <;> intro b hb <;> cases List.mem_singleton.mp hb
    · exact h.holds (Cursor.holds_head pos t rest problem)
    · exact Nat.le_refl pos

theorem blames_accept_bind {kinds : List TokenKind} {g : Option Token → Parse β}
    (hsome : ∀ start t pos rest, t.kind ∈ kinds → start.Reaches NotEnd ⟨pos, t :: rest⟩ →
      (g (some t) ⟨pos + 1, rest⟩).Blames n start ⟨pos + 1, rest⟩)
    (hnone : (g none).Blames n) : (accept kinds >>= g).Blames n := by
  rintro start ⟨pos, _ | ⟨t, rest⟩⟩ h
  · exact blames_pastEnd start _ h
  by_cases ht : t.kind ≠ .eof ∧ t.kind ∈ kinds
  · rw [accept_bind_of_mem ht.1 ht.2]
    obtain ⟨hreaches, hholds, hle, hbehind⟩ := hsome start t pos rest ht.2 h
    exact ⟨(Cursor.Reaches.step ht.1 pos).trans hreaches, hholds, hle, hbehind⟩
  · rw [accept_bind_of_not ht]
    exact hnone start _ h

/-- A choice whose alternatives keep to the contract on their own. -/
theorem blames_choice {kinds : List TokenKind} {g : Option Token → Parse β}
    (hk : .eof ∉ kinds) (hsome : ∀ t : Token, t.kind ∈ kinds → (g (some t)).Blames n)
    (hnone : (g none).Blames n) : (accept kinds >>= g).Blames n :=
  blames_accept_bind (fun start t pos _ ht h =>
    hsome t ht start _ (h.trans (.step (notEnd_of_mem hk t ht) pos))) hnone

theorem blames_consume {kind : TokenKind} (hk : kind ≠ .eof) (problem : Problem) :
    (consume kind problem).Blames n :=
  blames_choice (by simpa using hk.symm) (fun t _ => blames_pure t) (blames_raiseHere problem)

theorem skipTo_complaints (last : Token) (pos : Nat) (ts : List Token) :
    (skipTo last pos ts).complaints = [] := by
  induction ts generalizing last pos with
  | nil => rfl
  | cons t rest ih =>
    unfold skipTo
    split
    · rfl
    · exact ih t (pos + 1)

/-- Recovery itself has nothing to complain of. -/
theorem synchronize_complaints (c : Cursor) : (synchronize c).complaints = [] := by
  obtain ⟨pos, _ | ⟨t, rest⟩⟩ := c
  · rfl
  · simp only [synchronize]
    split
    · rfl
    · exact skipTo_complaints _ _ _

theorem Blames.recovering {p : Parse α} (hp : p.Blames n) : (recovering p).Blames 0 := by
  intro start c h
  have hpc := hp start c h
  cases hr : (p c).result with
  | ok a =>
    rw [recovering_of_ok hr]
    exact ⟨hpc.reaches, hpc.holds, hpc.le, fun _ _ => hpc.le⟩
  | error s =>
    cases s with
    | pastEnd =>
      rw [recovering_of_pastEnd hr]
      exact ⟨hpc.reaches, hpc.holds, hpc.le, fun _ _ => hpc.le⟩
    | raised b =>
      have hsync := (moves_synchronize (p c).cursor).reaches
      have hle : ∀ b ∈ (p c).complaints, b.pos ≤ (synchronize (p c).cursor).cursor.pos :=
        fun b hb => Nat.le_trans (hpc.le b hb) hsync.pos_le
      rw [recovering_of_raised hr, synchronize_complaints, List.append_nil]
      exact ⟨hpc.reaches.trans hsync, hpc.holds, hle, fun _ _ => hle⟩

end Parse

/-- An expression that was parsed all the same was blamed for the equals signs that it holds only. -/
theorem expression_blames (fuel : Nat) :
    (assignmentFuel fuel).Blames 1 ∧ (∀ l, (levelFuel fuel l).Blames 1) ∧
    (∀ l, (operandFuel fuel l).Blames 1) ∧ (∀ l left, (chainFuel fuel l left).Blames 1) ∧
    (unaryFuel fuel).Blames 1 ∧ (primaryFuel fuel).Blames 1 := by
  induction fuel with
  | zero =>
    exact ⟨blames_pastEnd, fun _ => blames_pastEnd, fun _ => blames_pastEnd,
      fun _ _ => blames_pastEnd, blames_pastEnd, blames_pastEnd⟩
  | succ fuel ih =>
    obtain ⟨ha, hl, ho, hc, hu, hp⟩ := ih
    refine ⟨?_, ?_, ?_, ?_, ?_, ?_⟩
    · refine (hl .equality).bind fun left => blames_accept_bind ?_ (blames_pure left)
      intro start equals pos rest hk h
      have hequals : NotEnd equals := notEnd_of_mem (by decide) equals hk
      have hvalue := ha start ⟨pos + 1, rest⟩ (h.trans (.step hequals pos))
      have hposition : (position ⟨pos + 1, rest⟩).Blames 1 start ⟨pos + 1, rest⟩ :=
        Outcome.blames_of_silent (.refl _) rfl
      refine blames_bind hposition ?_
      rintro _ ⟨⟩
      refine blames_bind hvalue fun value _ => ?_
      split
      · exact Outcome.blames_of_silent (.refl _) rfl
      · refine blames_bind (blames_complain ?_ ?_) fun _ _ => ?_
        · exact h.holds (Cursor.holds_head pos equals rest _)
        · exact hvalue.reaches.pos_le
        · exact Outcome.blames_of_silent (.refl _) rfl
    · exact fun l => (ho l).bind fun first => hc l first
    · intro l
      unfold operandFuel
      cases l.tighter with
      | some tighter => exact hl tighter
      | none => exact hu
    · intro l left
      exact blames_choice l.not_eof_mem_operators
        (fun operator _ => (ho l).bind fun right => hc l _) (blames_pure left)
    · exact blames_choice (by decide) (fun operator _ => hu.bind fun right => blames_pure _) hp
    · refine blames_choice (by decide) (fun t _ => ?_) (blames_raiseHere _)
      dsimp only
      split
      case h_5 =>
        exact ha.bind fun inner => (blames_consume (by decide) _).bind fun _ => blames_pure _
      all_goals exact blames_pure _

theorem blames_expression : expression.Blames 1 :=
  fun start c h => (expression_blames _).1 start c h

theorem blames_varDeclaration : varDeclaration.Blames 1 := by
  refine (blames_consume (by decide) _).bind fun name => ?_
  refine blames_choice (by decide) (fun equals _ => ?_) ?_
  · exact blames_expression.bind fun value => (blames_consume (by decide) _).bind fun _ => blames_pure _
  · exact (blames_consume (by decide) _).bind fun _ => blames_pure _

theorem blames_printStatement : printStatement.Blames 1 :=
  blames_expression.bind fun _ => (blames_consume (by decide) _).bind fun _ => blames_pure _

theorem blames_expressionStatement : expressionStatement.Blames 1 :=
  blames_expression.bind fun _ => (blames_consume (by decide) _).bind fun _ => blames_pure _

theorem statement_blames (fuel : Nat) :
    (declarationFuel fuel).Blames 0 ∧ (statementFuel fuel).Blames 0 ∧ (blockFuel fuel).Blames 0 := by
  induction fuel with
  | zero => exact ⟨blames_pastEnd, blames_pastEnd, blames_pastEnd⟩
  | succ fuel ih =>
    obtain ⟨hd, hs, hb⟩ := ih
    have hzero : 0 ≤ 1 := Nat.zero_le 1
    refine ⟨?_, ?_, ?_⟩
    · exact (blames_choice (by decide) (fun _ _ => blames_varDeclaration.mono hzero) hs).recovering
    · refine blames_choice (by decide) (fun t _ => ?_) (blames_expressionStatement.mono hzero)
      dsimp only
      split
      · exact blames_printStatement.mono hzero
      · exact hb.bind fun _ => blames_pure _
    · refine blames_peek.bind fun t => ?_
      split
      · exact (blames_consume (by decide) _).bind fun _ => blames_pure _
      · exact hd.bind fun first => hb.bind fun rest => blames_pure _

theorem program_blames (fuel : Nat) : (programFuel fuel).Blames 0 := by
  induction fuel with
  | zero => exact blames_pastEnd
  | succ fuel ih =>
    refine (blames_peek.bind fun t => blames_pure _).bind fun atEnd => ?_
    split
    · exact blames_pure _
    · exact (statement_blames fuel).1.bind fun first => ih.bind fun rest => blames_pure _

/-- Every complaint about a list of tokens blames the token at its position. -/
theorem parse_blames {ts : List Token} {b : Complaint} (hb : b ∈ (parse ts).complaints) :
    ts[b.pos]? = some b.token :=
  ((program_blames _ ⟨0, ts⟩ ⟨0, ts⟩ (.refl _)).holds b hb).2

end LoxLang.Grammar
