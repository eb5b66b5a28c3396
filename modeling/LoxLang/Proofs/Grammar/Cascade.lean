import LoxLang.Proofs.Grammar.Blame
import LoxLang.Proofs.Grammar.Sequence

/-!
Errors are not reported over and over. What was blamed for an error is passed over before parsing
goes on, so no token is blamed a second time. Only the end marker cannot be passed over: the
construct that was cut off by it is blamed on it, and then each block that is still open.
-/
namespace LoxLang.Grammar

open Parse

variable {α β : Type}

/-- How a complaint may follow on another: it blames a later token, or the same end marker. Only the
target of an assignment is looked at again when the assigned value has been read, and then the
equals sign is blamed. -/
def Complaint.InTurn (a b : Complaint) : Prop :=
  a.pos < b.pos ∨ (a.pos = b.pos ∧ a.token.kind = .eof) ∨ (b.problem = .invalidTarget ∧ b.pos < a.pos)

/-- The number of times that the end marker is blamed. -/
def endBlames (bs : List Complaint) : Nat :=
  bs.countP fun b => b.token.kind = .eof

/-- The number of blocks that are opened. -/
def openings (ts : List Token) : Nat :=
  ts.countP fun t => t.kind = .leftBrace

theorem endBlames_append (as bs : List Complaint) :
    endBlames (as ++ bs) = endBlames as + endBlames bs :=
  List.countP_append

theorem endBlames_eq_zero_iff {bs : List Complaint} :
    endBlames bs = 0 ↔ ∀ b ∈ bs, NotEnd b.token := by
  simp [endBlames, NotEnd]

theorem Cursor.Reaches.openings_le {P : Token → Prop} {c c' : Cursor} (h : c.Reaches P c') :
    openings c'.ahead ≤ openings c.ahead := by
  obtain ⟨used, -, hahead, -⟩ := h
  rw [openings, openings, hahead, List.countP_append]
  exact Nat.le_add_left _ _

/-- A token ahead of a cursor has been passed over on the way to a second one, or is ahead of it. -/
theorem Cursor.Reaches.passed_or_holds {P : Token → Prop} {c c' : Cursor} {b : Complaint}
    (h : c.Reaches P c') (hb : c.Holds b) : b.pos < c'.pos ∧ P b.token ∨ c'.Holds b := by
  obtain ⟨used, hused, hahead, hpos⟩ := h
  obtain ⟨hle, hget⟩ := hb
  rw [hahead] at hget
  by_cases hlt : b.pos < c'.pos
  · rw [List.getElem?_append_left (by omega)] at hget
    exact .inl ⟨hlt, hused _ (List.mem_of_getElem? hget)⟩
  · rw [List.getElem?_append_right (by omega)] at hget
    refine .inr ⟨by omega, ?_⟩
    rw [← hget]
    congr 1
    omega

namespace Outcome.Blames

variable {n : Nat} {c : Cursor} {o : Outcome α}

/-- Seen from a parser that was started further in front. -/
theorem within {start : Cursor} (h : o.Blames n c c) (hc : start.Reaches NotEnd c) :
    o.Blames n start c :=
  ⟨h.reaches, fun b hb => hc.holds (h.holds b hb), h.le, h.behind⟩

theorem le_pos (h : o.Blames n c c) {b : Complaint} (hb : b ∈ o.complaints) : c.pos ≤ b.pos :=
  (h.holds b hb).1

/-- A blamed token has been passed over, or the cursor stands in front of it. -/
theorem passed_or_at (h : o.Blames n c c) {b : Complaint} (hb : b ∈ o.complaints) :
    b.pos < o.cursor.pos ∧ NotEnd b.token ∨
      b.pos = o.cursor.pos ∧ o.cursor.ahead.head? = some b.token := by
  obtain hpassed | ⟨hle, hget⟩ := h.reaches.passed_or_holds (h.holds b hb)
  · exact .inl hpassed
  · have hpos : b.pos = o.cursor.pos := Nat.le_antisymm (h.le b hb) hle
    rw [hpos, Nat.sub_self] at hget
    exact .inr ⟨hpos, by rw [List.head?_eq_getElem?, hget]⟩

/-- After a result, none of the blamed tokens behind the cursor is an end marker. -/
theorem endBlames_eq_zero (h : o.Blames 1 c c) {a : α} (ha : o.result = .ok a) :
    endBlames o.complaints = 0 := by
  rw [endBlames_eq_zero_iff]
  intro b hb hend
  have hbehind := h.behind a ha b hb
  obtain ⟨-, hnot⟩ | ⟨hpos, -⟩ := h.passed_or_at hb
  · exact hnot hend
  · omega

end Outcome.Blames

/-- Complaints of two runs, the second of which started where the first one ended. -/
theorem inTurn_append {as bs : List Complaint} {pos : Nat} (has : as.Pairwise Complaint.InTurn)
    (hbs : bs.Pairwise Complaint.InTurn)
    (hle : ∀ a ∈ as, a.pos ≤ pos) (hpassed : ∀ a ∈ as, a.pos < pos ∨ a.token.kind = .eof)
    (hb : ∀ b ∈ bs, pos ≤ b.pos) : (as ++ bs).Pairwise Complaint.InTurn := by
  rw [List.pairwise_append]
  refine ⟨has, hbs, ?_⟩
  intro a hma b hmb
  have hab : a.pos ≤ b.pos := Nat.le_trans (hle a hma) (hb b hmb)
  obtain hlt | heq := Nat.lt_or_eq_of_le hab
  · exact .inl hlt
  · obtain hlt | hend := hpassed a hma
    · have hge := hb b hmb
      omega
    · exact .inr (.inl ⟨heq, hend⟩)

/-- What holds of the complaints of a construct, from the cursor `c` on. They are made in turn, after
a result they blame tokens behind the cursor, and they blame the end marker no more often than
braces were opened, and `n` times more. -/
structure Outcome.Orderly (n : Nat) (c : Cursor) (o : Outcome α) : Prop
    extends Outcome.Blames 1 c c o where
  inTurn : o.complaints.Pairwise Complaint.InTurn
  ends : endBlames o.complaints + openings o.cursor.ahead ≤ openings c.ahead + n

/-- The same of a run that goes on after errors. It may end in front of an end marker that was
blamed. -/
structure Outcome.Settled (c : Cursor) (o : Outcome α) : Prop extends Outcome.Blames 0 c c o where
  inTurn : o.complaints.Pairwise Complaint.InTurn
  passed : ∀ a, o.result = .ok a →
    ∀ b ∈ o.complaints, b.pos < o.cursor.pos ∨ b.token.kind = .eof
  ends : endBlames o.complaints + openings o.cursor.ahead ≤ openings c.ahead + 1

theorem Outcome.orderly_of_silent {n : Nat} {c : Cursor} {o : Outcome α}
    (hreaches : c.Reaches NotEnd o.cursor) (hsilent : o.complaints = []) : o.Orderly n c := by
  refine ⟨blames_of_silent hreaches hsilent, ?_, ?_⟩
  · rw [hsilent]
    exact .nil
  · have hle := hreaches.openings_le
    rw [hsilent]
    exact Nat.le_trans (Nat.le_of_eq (Nat.zero_add _)) (Nat.le_add_right_of_le hle)

theorem Outcome.Orderly.of_reaches {n : Nat} {start c : Cursor} {o : Outcome α} (h : o.Orderly n c)
    (hc : start.Reaches NotEnd c) : o.Orderly n start := by
  have hblames := h.toBlames.within hc
  refine ⟨⟨hc.trans hblames.reaches, hblames.holds, hblames.le, hblames.behind⟩, h.inTurn, ?_⟩
  have hle := hc.openings_le
  have hends := h.ends
  omega

/-- The same complaints and the same place, with another result if there is one. -/
theorem Outcome.Orderly.congr {n : Nat} {c : Cursor} {o : Outcome α} {o' : Outcome β}
    (h : o.Orderly n c) (hcursor : o'.cursor = o.cursor) (hcomplaints : o'.complaints = o.complaints)
    (hresult : ∀ b, o'.result = .ok b → ∃ a, o.result = .ok a) : o'.Orderly n c := by
  obtain ⟨⟨hreaches, hholds, hle, hbehind⟩, hturn, hends⟩ := h
  rw [← hcursor] at hreaches hle hbehind hends
  rw [← hcomplaints] at hholds hle hbehind hturn hends
  refine ⟨⟨hreaches, hholds, hle, ?_⟩, hturn, hends⟩
  intro b hb
  obtain ⟨a, ha⟩ := hresult b hb
  exact hbehind a ha

theorem Outcome.Orderly.settled {c : Cursor} {o : Outcome α} (h : o.Orderly 1 c) : o.Settled c :=
  ⟨h.toBlames.mono (Nat.zero_le 1), h.inTurn, fun a ha b hb => .inl (h.behind a ha b hb), h.ends⟩

namespace Parse

/-- Every run of the parser makes its complaints so. -/
def Orderly (n : Nat) (p : Parse α) : Prop :=
  ∀ c, (p c).Orderly n c

def Settled (p : Parse α) : Prop :=
  ∀ c, (p c).Settled c

variable {n : Nat}

theorem orderly_bind {p : Parse α} {f : α → Parse β} {c : Cursor} (hp : (p c).Orderly n c)
    (hf : ∀ a, (p c).result = .ok a → (f a (p c).cursor).Orderly n (p c).cursor) :
    ((p >>= f) c).Orderly n c := by
  cases hr : (p c).result with
  | error stop =>
    rw [bind_of_error hr]
    exact hp.congr rfl rfl fun b hb => by cases hb
  | ok a =>
    have hfa := hf a hr
    have hblames : ((p >>= f) c).Blames 1 c c := blames_bind hp.toBlames fun b hb => by
      obtain rfl : a = b := Except.ok.inj (hr.symm.trans hb)
      exact hfa.toBlames.within hp.reaches
    rw [bind_of_ok hr] at hblames ⊢
    refine ⟨hblames, ?_, ?_⟩
    · exact inTurn_append hp.inTurn hfa.inTurn hp.le (fun x hx => .inl (hp.behind a hr x hx))
        fun x hx => hfa.le_pos hx
    · -- a construct that was parsed has not blamed the end marker, so the bound is left to the rest
      have hquiet := hp.toBlames.endBlames_eq_zero hr
      have hopenings := hp.reaches.openings_le
      have hends := hfa.ends
      dsimp only
      rw [endBlames_append]
      omega

theorem Orderly.bind {p : Parse α} {f : α → Parse β} (hp : p.Orderly n) (hf : ∀ a, (f a).Orderly n) :
    (p >>= f).Orderly n :=
  fun c => orderly_bind (hp c) fun a _ => hf a _

theorem orderly_pure (a : α) : (Pure.pure a : Parse α).Orderly n :=
  fun c => Outcome.orderly_of_silent (.refl c) rfl

theorem orderly_pastEnd : (pastEnd : Parse α).Orderly n :=
  fun c => Outcome.orderly_of_silent (.refl c) rfl

theorem orderly_peek : peek.Orderly n := by
  rintro ⟨pos, _ | ⟨t, rest⟩⟩
  · exact orderly_pastEnd _
  · exact Outcome.orderly_of_silent (.refl _) rfl

theorem orderly_raiseHere (problem : Problem) : (raiseHere problem : Parse α).Orderly (n + 1) := by
  rintro ⟨pos, _ | ⟨t, rest⟩⟩
  · exact orderly_pastEnd _
  · have hblames : ((raiseHere problem : Parse α) ⟨pos, t :: rest⟩).Blames 1 _ _ :=
      blames_raiseHere problem _ _ (.refl _)
    have hone : endBlames [⟨pos, t, problem⟩] ≤ 1 := List.countP_le_length
    refine ⟨hblames, List.pairwise_singleton _ _, ?_⟩
    change endBlames [⟨pos, t, problem⟩] + openings (t :: rest) ≤ openings (t :: rest) + (n + 1)
    omega

theorem orderly_accept_bind {kinds : List TokenKind} {g : Option Token → Parse β}
    (hsome : ∀ (t : Token) pos rest, NotEnd t → t.kind ∈ kinds →
      (g (some t) ⟨pos + 1, rest⟩).Orderly n ⟨pos, t :: rest⟩)
    (hnone : (g none).Orderly n) : (accept kinds >>= g).Orderly n := by
  rintro ⟨pos, _ | ⟨t, rest⟩⟩
  · exact orderly_pastEnd _
  by_cases ht : t.kind ≠ .eof ∧ t.kind ∈ kinds
  · rw [accept_bind_of_mem ht.1 ht.2]
    exact hsome t pos rest ht.1 ht.2
  · rw [accept_bind_of_not ht]
    exact hnone _

theorem orderly_choice {kinds : List TokenKind} {g : Option Token → Parse β}
    (hsome : ∀ t : Token, t.kind ∈ kinds → (g (some t)).Orderly n) (hnone : (g none).Orderly n) :
    (accept kinds >>= g).Orderly n := by
  apply orderly_accept_bind _ hnone
  intro t pos rest hend ht
  exact (hsome t ht ⟨pos + 1, rest⟩).of_reaches (.step hend pos)

theorem orderly_consume (kind : TokenKind) (problem : Problem) :
    (consume kind problem).Orderly (n + 1) :=
  orderly_choice (fun t _ => orderly_pure t) (orderly_raiseHere problem)

theorem Orderly.blames {p : Parse α} (hp : p.Orderly n) : p.Blames 1 :=
  fun _ c h => (hp c).toBlames.within h

/-- The token blamed for the error that stopped a construct is passed over. -/
theorem Orderly.recovering {p : Parse α} (hp : p.Orderly 1) : (recovering p).Settled := by
  intro c
  have h := hp c
  cases hr : (p c).result with
  | ok a =>
    rw [recovering_of_ok hr]
    apply Outcome.Orderly.settled
    exact h.congr rfl rfl fun _ _ => ⟨a, hr⟩
  | error stop =>
    cases stop with
    | pastEnd =>
      rw [recovering_of_pastEnd hr]
      apply Outcome.Orderly.settled
      exact h.congr rfl rfl fun _ hb => by cases hb
    | raised blame =>
      have hsync := (moves_synchronize (p c).cursor).reaches
      have hblames := hp.blames.recovering c c (.refl c)
      rw [recovering_of_raised hr, synchronize_complaints, List.append_nil] at hblames ⊢
      refine ⟨hblames, h.inTurn, ?_, ?_⟩
      · intro _ _ b hb
        by_cases hend : b.token.kind = .eof
        · exact .inr hend
        · left
          -- recovery passes over the token in front of which the construct was stopped
          obtain ⟨hlt, -⟩ | ⟨hpos, hhead⟩ := h.passed_or_at hb
          · exact Nat.lt_of_lt_of_le hlt hsync.pos_le
          · exact hpos ▸ synchronize_taken hhead hend
      · have hopenings := hsync.openings_le
        have hends := h.ends
        dsimp only
        omega

end Parse

/-- An equals sign that is blamed when the assigned value has been read. -/
theorem Outcome.Orderly.lookBack {n pos : Nat} {equals : Token} {rest : List Token} {o : Outcome α}
    {a : α} (h : o.Orderly n ⟨pos + 1, rest⟩) (ha : o.result = .ok a) (hequals : NotEnd equals) (b : β) :
    Outcome.Orderly n ⟨pos, equals :: rest⟩
      ⟨.ok b, o.cursor, o.complaints ++ [⟨pos, equals, .invalidTarget⟩]⟩ := by
  have hstep : Cursor.Reaches NotEnd ⟨pos, equals :: rest⟩ ⟨pos + 1, rest⟩ := .step hequals pos
  have hwhole := h.of_reaches hstep
  have hpos : pos + 1 ≤ o.cursor.pos := h.reaches.pos_le
  refine ⟨⟨hwhole.reaches, ?_, ?_, ?_⟩, ?_, ?_⟩
  · intro x hx
    rcases List.mem_append.mp hx with hx | hx
    · exact hwhole.holds x hx
    · rw [List.mem_singleton.mp hx]
      exact Cursor.holds_head pos equals rest _
  · intro x hx
    rcases List.mem_append.mp hx with hx | hx
    · exact h.le x hx
    · rw [List.mem_singleton.mp hx]
      exact Nat.le_of_succ_le hpos
  · intro _ _ x hx
    rcases List.mem_append.mp hx with hx | hx
    · exact h.behind a ha x hx
    · rw [List.mem_singleton.mp hx]
      exact hpos
  · rw [List.pairwise_append]
    refine ⟨h.inTurn, List.pairwise_singleton _ _, ?_⟩
    intro x hx y hy
    rw [List.mem_singleton.mp hy]
    have hlater : pos + 1 ≤ x.pos := h.le_pos hx
    exact .inr (.inr ⟨rfl, hlater⟩)
  · have hzero : endBlames [⟨pos, equals, .invalidTarget⟩] = 0 := by
      rw [endBlames_eq_zero_iff]
      intro x hx
      rw [List.mem_singleton.mp hx]
      exact hequals
    have hends := hwhole.ends
    rw [endBlames_append, hzero]
    exact hends

theorem expression_orderly (fuel : Nat) :
    (assignmentFuel fuel).Orderly 1 ∧ (∀ l, (levelFuel fuel l).Orderly 1) ∧
    (∀ l, (operandFuel fuel l).Orderly 1) ∧ (∀ l left, (chainFuel fuel l left).Orderly 1) ∧
    (unaryFuel fuel).Orderly 1 ∧ (primaryFuel fuel).Orderly 1 := by
  induction fuel with
  | zero =>
    exact ⟨orderly_pastEnd, fun _ => orderly_pastEnd, fun _ => orderly_pastEnd,
      fun _ _ => orderly_pastEnd, orderly_pastEnd, orderly_pastEnd⟩
  | succ fuel ih =>
    obtain ⟨ha, hl, ho, hc, hu, hp⟩ := ih
    refine ⟨?_, ?_, ?_, ?_, ?_, ?_⟩
    · refine (hl .equality).bind fun left => orderly_accept_bind ?_ (orderly_pure left)
      intro equals pos rest hequals hk
      have hvalue := ha ⟨pos + 1, rest⟩
      have hwhole := hvalue.of_reaches (.step hequals pos)
      have hposition : position ⟨pos + 1, rest⟩ = ⟨.ok (pos + 1), ⟨pos + 1, rest⟩, []⟩ := rfl
      dsimp only
      rw [bind_of_silent hposition]
      cases hr : (assignmentFuel fuel ⟨pos + 1, rest⟩).result with
      | error stop =>
        rw [bind_of_error hr]
        exact hwhole.congr rfl rfl fun _ h => by cases h
      | ok value =>
        rw [bind_of_ok hr]
        split
        · exact hwhole.congr rfl (List.append_nil _) fun _ _ => ⟨value, hr⟩
        · exact hvalue.lookBack hr hequals left
    · exact fun l => (ho l).bind fun first => hc l first
    · intro l
      unfold operandFuel
      cases l.tighter with
      | some tighter => exact hl tighter
      | none => exact hu
    · intro l left
      exact orderly_choice (fun operator _ => (ho l).bind fun right => hc l _) (orderly_pure left)
    · exact orderly_choice (fun operator _ => hu.bind fun right => orderly_pure _) hp
    · refine orderly_choice (fun t _ => ?_) (orderly_raiseHere _)
      dsimp only
      split
      case h_5 =>
        exact ha.bind fun inner => (orderly_consume _ _).bind fun _ => orderly_pure _
      all_goals exact orderly_pure _

theorem orderly_expression : expression.Orderly 1 :=
  fun c => (expression_orderly _).1 c

theorem orderly_varDeclaration : varDeclaration.Orderly 1 := by
  refine (orderly_consume _ _).bind fun name => orderly_choice (fun equals _ => ?_) ?_
  · exact orderly_expression.bind fun value => (orderly_consume _ _).bind fun _ => orderly_pure _
  · exact (orderly_consume _ _).bind fun _ => orderly_pure _

theorem orderly_printStatement : printStatement.Orderly 1 :=
  orderly_expression.bind fun _ => (orderly_consume _ _).bind fun _ => orderly_pure _

theorem orderly_expressionStatement : expressionStatement.Orderly 1 :=
  orderly_expression.bind fun _ => (orderly_consume _ _).bind fun _ => orderly_pure _

/-! Sequences of declarations: once the end marker has been blamed, what follows starts in front of
it. -/

section

variable {c : Cursor} {o : Outcome α} {o' : Outcome β}

/-- The end marker was blamed, or all that was opened so far leaves the bound to what follows. -/
theorem Outcome.Settled.ends_append {n : Nat} (h : o.Settled c)
    (hreaches : o.cursor.Reaches NotEnd o'.cursor)
    (hends : endBlames o'.complaints + openings o'.cursor.ahead ≤ openings o.cursor.ahead + (n + 1))
    (hatEnd : ∀ e, o.cursor.ahead.head? = some e → e.kind = .eof → endBlames o'.complaints ≤ n) :
    endBlames (o.complaints ++ o'.complaints) + openings o'.cursor.ahead ≤
      openings c.ahead + (n + 1) := by
  have hfirst := h.ends
  have hopened := h.reaches.openings_le
  have hopened' := hreaches.openings_le
  rw [endBlames_append]
  by_cases hquiet : endBlames o.complaints = 0
  · omega
  · obtain ⟨b, hb, hend⟩ : ∃ b ∈ o.complaints, b.token.kind = .eof := by
      simpa [endBlames_eq_zero_iff, NotEnd] using hquiet
    obtain ⟨-, hnot⟩ | ⟨-, hhead⟩ := h.passed_or_at hb
    · exact absurd hend hnot
    · have hrest := hatEnd b.token hhead hend
      omega

theorem Outcome.Settled.inTurn_append (h : o.Settled c) {a : α} (ha : o.result = .ok a)
    (hturn : o'.complaints.Pairwise Complaint.InTurn)
    (hle : ∀ b ∈ o'.complaints, o.cursor.pos ≤ b.pos) :
    (o.complaints ++ o'.complaints).Pairwise Complaint.InTurn :=
  Grammar.inTurn_append h.inTurn hturn h.le (h.passed a ha) hle

end

namespace Parse

/-- A declaration and the rest of its block. -/
theorem Settled.bind_block {p : Parse α} {f : α → Parse β} (hp : p.Settled)
    (hf : ∀ a, (f a).Orderly 2) (hmoves : ∀ a, (f a).Moves NotEnd 1)
    (hatEnd : ∀ a c e, c.ahead.head? = some e → e.kind = .eof → endBlames (f a c).complaints ≤ 1) :
    (p >>= f).Orderly 2 := by
  intro c
  have h := hp c
  cases hr : (p c).result with
  | error stop =>
    rw [bind_of_error hr]
    have hends := h.ends
    exact ⟨⟨h.reaches, h.holds, h.le, fun a ha => by cases ha⟩, h.inTurn, Nat.le_succ_of_le hends⟩
  | ok a =>
    have hfa := hf a (p c).cursor
    have hblames := blames_bind h.toBlames fun b _ =>
      ((hf b _).toBlames.mono (Nat.zero_le 1)).within h.reaches
    rw [bind_of_ok hr] at hblames ⊢
    refine ⟨⟨hblames.reaches, hblames.holds, hblames.le, ?_⟩, ?_, ?_⟩
    · intro b hb x hx
      have htaken : (p c).cursor.pos + 1 ≤ (f a (p c).cursor).cursor.pos := (hmoves a _).taken b hb
      rcases List.mem_append.mp hx with hx | hx
      · exact Nat.le_trans (Nat.add_le_add_right (h.le x hx) 1) htaken
      · exact hfa.behind b hb x hx
    · exact h.inTurn_append hr hfa.inTurn fun x hx => hfa.le_pos hx
    · exact h.ends_append hfa.reaches hfa.ends (hatEnd a _)

theorem Settled.bind_pure {p : Parse α} (hp : p.Settled) (f : α → β) :
    (p >>= fun a => Pure.pure (f a)).Settled := by
  intro c
  obtain ⟨⟨hreaches, hholds, hle, hbehind⟩, hturn, hpassed, hends⟩ := hp c
  rw [bind_pure_apply]
  refine ⟨⟨hreaches, hholds, hle, fun _ _ => hle⟩, hturn, ?_, hends⟩
  intro b hb
  cases hr : (p c).result with
  | error stop => simp [hr, Except.map] at hb
  | ok a => exact hpassed a hr

/-- A declaration and the rest of the program. -/
theorem Settled.bind_program {p : Parse α} {f : α → Parse β} (hp : p.Settled)
    (hf : ∀ a, (f a).Settled)
    (hatEnd : ∀ a c e, c.ahead.head? = some e → e.kind = .eof → endBlames (f a c).complaints = 0) :
    (p >>= f).Settled := by
  intro c
  have h := hp c
  cases hr : (p c).result with
  | error stop =>
    rw [bind_of_error hr]
    exact ⟨⟨h.reaches, h.holds, h.le, fun a ha => by cases ha⟩, h.inTurn, fun a ha => (by cases ha), h.ends⟩
  | ok a =>
    have hfa := hf a (p c).cursor
    have hblames := blames_bind h.toBlames fun b _ => (hf b _).toBlames.within h.reaches
    rw [bind_of_ok hr] at hblames ⊢
    refine ⟨hblames, ?_, ?_, ?_⟩
    · exact h.inTurn_append hr hfa.inTurn fun x hx => hfa.le_pos hx
    · intro b hb x hx
      rcases List.mem_append.mp hx with hx | hx
      · exact (h.passed a hr x hx).imp_left fun hlt => Nat.lt_of_lt_of_le hlt hfa.reaches.pos_le
      · exact hfa.passed b hb x hx
    · exact h.ends_append hfa.reaches hfa.ends fun e he hk => Nat.le_of_eq (hatEnd a _ e he hk)

end Parse

/-- In front of the end marker a block complains of nothing but its missing brace. -/
theorem endBlames_block {c : Cursor} {e : Token} (hc : c.ahead.head? = some e) (he : e.kind = .eof)
    (fuel : Nat) : endBlames (blockFuel fuel c).complaints ≤ 1 := by
  obtain ⟨pos, _ | ⟨t, rest⟩⟩ := c
  · cases hc
  cases hc
  cases fuel with
  | zero => exact Nat.zero_le 1
  | succ fuel =>
    have hblock : blockFuel (fuel + 1) ⟨pos, e :: rest⟩ =
        (consume .rightBrace .expectBraceAfterBlock >>= fun _ => Pure.pure []) ⟨pos, e :: rest⟩ := by
      refine (bind_of_silent (a := e) rfl).trans ?_
      rw [if_pos (.inr he)]
    have hcomplaints : (blockFuel (fuel + 1) ⟨pos, e :: rest⟩).complaints =
        [⟨pos, e, .expectBraceAfterBlock⟩] := by
      rw [hblock, bind_pure_apply]
      exact congrArg Outcome.complaints (accept_bind_of_not (by simp [he]) pos rest)
    rw [hcomplaints]
    exact List.countP_le_length

theorem endBlames_program {c : Cursor} {e : Token} (hc : c.ahead.head? = some e) (he : e.kind = .eof)
    (fuel : Nat) : endBlames (programFuel fuel c).complaints = 0 := by
  obtain ⟨pos, _ | ⟨t, rest⟩⟩ := c
  · cases hc
  cases hc
  cases fuel with
  | zero => rfl
  | succ fuel =>
    have hprogram : programFuel (fuel + 1) ⟨pos, e :: rest⟩ = ⟨.ok [], ⟨pos, e :: rest⟩, []⟩ := by
      refine (bind_of_silent (atEnd_apply e pos rest)).trans ?_
      rw [if_pos (by simp [he]), pure_apply]
    rw [hprogram]
    rfl

theorem declaration_settled {fuel : Nat} (h : (statementFuel fuel).Orderly 1) :
    (declarationFuel (fuel + 1)).Settled :=
  (orderly_choice (fun _ _ => orderly_varDeclaration) h).recovering

theorem statement_orderly (fuel : Nat) :
    (declarationFuel fuel).Settled ∧ (statementFuel fuel).Orderly 1 ∧ (blockFuel fuel).Orderly 2 := by
  induction fuel with
  | zero => exact ⟨fun _ => (orderly_pastEnd _).settled, orderly_pastEnd, orderly_pastEnd⟩
  | succ fuel ih =>
    obtain ⟨hd, hs, hb⟩ := ih
    refine ⟨declaration_settled hs, ?_, ?_⟩
    · refine orderly_accept_bind ?_ orderly_expressionStatement
      intro t pos rest hend ht
      dsimp only
      split
      · exact (orderly_printStatement _).of_reaches (.step hend pos)
      · next hprint =>
        -- the brace that was opened pays for the one that may be missing
        have hbrace : t.kind = .leftBrace := by simpa [hprint] using ht
        have hbody := (hb.bind fun body => orderly_pure (Stmt.block body)) ⟨pos + 1, rest⟩
        have hwhole := hbody.of_reaches (.step hend pos)
        refine ⟨hwhole.toBlames, hwhole.inTurn, ?_⟩
        have hends := hbody.ends
        have hopenings : openings (t :: rest) = openings rest + 1 := by
          simp [openings, hbrace]
        dsimp only at hends ⊢
        omega
    · refine orderly_peek.bind fun t => ?_
      split
      · exact (orderly_consume _ _).bind fun _ => orderly_pure _
      · refine hd.bind_block (fun first => hb.bind fun rest => orderly_pure _) ?_ ?_
        · exact fun first => (statement_moves fuel).2.2.bind fun rest => moves_pure _
        · intro first c e hc he
          rw [bind_pure_apply]
          exact endBlames_block hc he fuel

theorem program_settled (fuel : Nat) : (programFuel fuel).Settled := by
  induction fuel with
  | zero => exact fun _ => (orderly_pastEnd _).settled
  | succ fuel ih =>
    rintro ⟨pos, _ | ⟨t, rest⟩⟩
    · exact (orderly_pastEnd _).settled
    unfold programFuel
    rw [bind_of_silent (atEnd_apply t pos rest)]
    split
    · exact (orderly_pure _ _).settled
    · refine (statement_orderly fuel).1.bind_program (fun first => ih.bind_pure _) ?_ _
      intro first c e hc he
      rw [bind_pure_apply]
      exact endBlames_program hc he fuel

/-- Of complaints made in turn, a token other than an end marker is blamed by one at most. -/
theorem count_le_one_of_inTurn {bs : List Complaint} (h : bs.Pairwise Complaint.InTurn) {pos : Nat}
    (hpos : ∀ b ∈ bs, b.pos = pos → NotEnd b.token) : bs.countP (·.pos = pos) ≤ 1 := by
  have hturn := h.filter (fun b => decide (b.pos = pos))
  have hmem : ∀ b ∈ bs.filter (fun b => decide (b.pos = pos)), b.pos = pos ∧ NotEnd b.token := by
    intro b hb
    obtain ⟨hb, heq⟩ := List.mem_filter.mp hb
    have heq : b.pos = pos := of_decide_eq_true heq
    exact ⟨heq, hpos b hb heq⟩
  rw [List.countP_eq_length_filter]
  generalize bs.filter (fun b => decide (b.pos = pos)) = same at hturn hmem ⊢
  rcases same with _ | ⟨a, _ | ⟨b, rest⟩⟩
  · exact Nat.zero_le 1
  · exact Nat.le_refl 1
  · obtain ⟨ha, hend⟩ := hmem a (by simp)
    have hb := (hmem b (by simp)).1
    obtain hlt | ⟨-, heof⟩ | ⟨-, hlt⟩ := List.rel_of_pairwise_cons hturn (List.mem_cons_self (a := b))
    · omega
    · exact absurd heof hend
    · omega

/-- No error is reported over and over. However many errors a list of tokens has, each complaint
blames the token at its position, no token other than the end marker is blamed twice, the end marker
is blamed at most once more than blocks are opened, and the errors at which constructs were given up,
which are all but those about targets of assignments, come in the order of their positions. -/
theorem parse_never_cascades (ts : List Token) :
    (∀ b ∈ (parse ts).complaints, ts[b.pos]? = some b.token) ∧
    (∀ pos t, ts[pos]? = some t → t.kind ≠ .eof →
      (parse ts).complaints.countP (·.pos = pos) ≤ 1) ∧
    (parse ts).complaints.countP (·.token.kind = .eof) ≤ ts.countP (·.kind = .leftBrace) + 1 ∧
    ((parse ts).complaints.filter (·.problem ≠ .invalidTarget)).Pairwise fun a b =>
      a.pos < b.pos ∨ a.pos = b.pos ∧ a.token.kind = .eof := by
  have hsettled : (parse ts).Settled ⟨0, ts⟩ := program_settled _ ⟨0, ts⟩
  refine ⟨fun b hb => parse_blames hb, ?_, ?_, ?_⟩
  · intro pos t ht hend
    apply count_le_one_of_inTurn hsettled.inTurn
    intro b hb hpos
    have htoken := parse_blames hb
    rw [hpos, ht] at htoken
    exact Option.some.inj htoken ▸ hend
  · exact Nat.le_trans (Nat.le_add_right _ _) hsettled.ends
  · rw [List.pairwise_filter]
    refine hsettled.inTurn.imp ?_
    rintro a b (hlt | heof | ⟨htarget, -⟩) ha hb
    · exact .inl hlt
    · exact .inr heof
    · simp [htarget] at hb

/-- The tokens of `{ nil = nil = nil ); { print`, with the end marker. -/
private def manyErrors : List Token :=
  [⟨.leftBrace, "\x7b", .nil, 1⟩, ⟨.nilWord, "nil", .nil, 1⟩, ⟨.equal, "=", .nil, 1⟩,
    ⟨.nilWord, "nil", .nil, 1⟩, ⟨.equal, "=", .nil, 1⟩, ⟨.nilWord, "nil", .nil, 1⟩,
    ⟨.rightParen, ")", .nil, 1⟩, ⟨.semicolon, ";", .nil, 1⟩, ⟨.leftBrace, "\x7b", .nil, 1⟩,
    ⟨.printWord, "print", .nil, 1⟩, ⟨.eof, "", .nil, 1⟩]

/-- Both equals signs and the parenthesis are blamed once, the inner one of the equals signs first,
and the end marker as often as it can be. -/
theorem parse_never_cascades_manyErrors :
    (parse manyErrors).complaints.map (·.pos) = [4, 2, 6, 10, 10, 10] ∧
    (parse manyErrors).complaints.countP (·.pos = 4) = 1 ∧
    (parse manyErrors).complaints.countP (·.token.kind = .eof) =
      manyErrors.countP (·.kind = .leftBrace) + 1 := by
  obtain ⟨-, honce, hends, -⟩ := parse_never_cascades manyErrors
  have hcount := honce 4 ⟨.equal, "=", .nil, 1⟩ rfl (by decide)
  refine ⟨rfl, Nat.le_antisymm hcount (by decide), Nat.le_antisymm hends (by decide)⟩

end LoxLang.Grammar
