import LoxLang.Proofs.Grammar.Motion

/-!
Fuel does not show. More fuel never changes what a parser did without running out, and the fuel for
the tokens ahead runs out in no list with an end marker. So a parser called from outside does what it
does with any fuel that is enough.
-/
namespace LoxLang.Grammar

open Parse

variable {α β : Type}

namespace Parse

/-- The second parser does what the first does, wherever the first does not run out. -/
def ExtendedBy (p q : Parse α) : Prop :=
  ∀ c, (p c).result ≠ .error .pastEnd → q c = p c

theorem ExtendedBy.refl (p : Parse α) : p.ExtendedBy p :=
  fun _ _ => rfl

theorem ExtendedBy.trans {p q r : Parse α} (hpq : p.ExtendedBy q) (hqr : q.ExtendedBy r) :
    p.ExtendedBy r := by
  intro c h
  have hq := hpq c h
  rw [hqr c (hq ▸ h), hq]

theorem pastEnd_extendedBy (q : Parse α) : (pastEnd : Parse α).ExtendedBy q :=
  fun _ h => absurd rfl h

theorem ExtendedBy.bind {p q : Parse α} {f g : α → Parse β} (hpq : p.ExtendedBy q)
    (hfg : ∀ a, (f a).ExtendedBy (g a)) : (p >>= f).ExtendedBy (q >>= g) := by
  intro c h
  cases hr : (p c).result with
  | error stop =>
    rw [bind_of_error hr] at h ⊢
    have hq := hpq c (by rw [hr]; exact fun hs => h (by simpa using hs))
    rw [bind_of_error (hq ▸ hr), hq]
  | ok a =>
    rw [bind_of_ok hr] at h ⊢
    have hq := hpq c (by simp [hr])
    rw [bind_of_ok (hq ▸ hr), hq, hfg a _ h]

theorem ExtendedBy.recovering {p q : Parse α} (hpq : p.ExtendedBy q) :
    (recovering p).ExtendedBy (recovering q) := by
  intro c h
  have hp : (p c).result ≠ .error .pastEnd := fun hr => h (by rw [recovering_of_pastEnd hr])
  simp only [Parse.recovering, hpq c hp]

/-- The parser has tokens to look at as long as it has fuel. -/
def Sated (p : Parse α) (c : Cursor) : Prop :=
  (p c).result = .error .pastEnd → (p c).cursor.ahead = []

theorem sated_of_ok {p : Parse α} {c : Cursor} {a : α} (h : (p c).result = .ok a) : p.Sated c := by
  intro hr
  rw [h] at hr
  cases hr

theorem sated_pure (a : α) (c : Cursor) : (Pure.pure a : Parse α).Sated c :=
  sated_of_ok rfl

theorem Sated.bind {p : Parse α} {f : α → Parse β} {c : Cursor} (hp : p.Sated c)
    (hf : ∀ a, (p c).result = .ok a → (f a).Sated (p c).cursor) : (p >>= f).Sated c := by
  intro h
  cases hr : (p c).result with
  | error stop =>
    rw [bind_of_error hr] at h ⊢
    cases h
    exact hp hr
  | ok a =>
    rw [bind_of_ok hr] at h ⊢
    exact hf a hr h

theorem sated_peek (c : Cursor) : peek.Sated c := by
  obtain ⟨pos, _ | ⟨t, rest⟩⟩ := c
  · exact fun _ => rfl
  · exact sated_of_ok rfl

theorem sated_raiseHere (problem : Problem) (c : Cursor) : (raiseHere problem : Parse α).Sated c := by
  obtain ⟨pos, _ | ⟨t, rest⟩⟩ := c
  · exact fun _ => rfl
  · rintro ⟨⟩

theorem sated_accept_bind {kinds : List TokenKind} {g : Option Token → Parse β} {c : Cursor}
    (hs : ∀ t rest, c.ahead = t :: rest → t.kind ∈ kinds → (g (some t)).Sated ⟨c.pos + 1, rest⟩)
    (hn : (g none).Sated c) : (accept kinds >>= g).Sated c := by
  obtain ⟨pos, _ | ⟨t, rest⟩⟩ := c
  · exact fun _ => rfl
  by_cases ht : t.kind ≠ .eof ∧ t.kind ∈ kinds
  · unfold Sated
    rw [accept_bind_of_mem ht.1 ht.2]
    exact hs t rest rfl ht.2
  · unfold Sated
    rw [accept_bind_of_not ht]
    exact hn

theorem sated_consume (kind : TokenKind) (problem : Problem) (c : Cursor) :
    (consume kind problem).Sated c :=
  sated_accept_bind (fun t _ _ _ => sated_pure t _) (sated_raiseHere problem c)

theorem skipTo_sated (last : Token) (pos : Nat) (ts : List Token)
    (h : (skipTo last pos ts).result = .error .pastEnd) : (skipTo last pos ts).cursor.ahead = [] := by
  induction ts generalizing last pos with
  | nil => rfl
  | cons t rest ih =>
    unfold skipTo at h ⊢
    split at h
    · cases h
    · next hn =>
      rw [if_neg hn]
      exact ih t (pos + 1) h

theorem sated_synchronize (c : Cursor) : synchronize.Sated c := by
  obtain ⟨pos, _ | ⟨t, rest⟩⟩ := c
  · exact fun _ => rfl
  · unfold Sated synchronize
    dsimp only
    split
    · rintro ⟨⟩
    · exact skipTo_sated t (pos + 1) rest

theorem Sated.recovering {p : Parse α} {c : Cursor} (hp : p.Sated c) : (recovering p).Sated c := by
  intro h
  cases hr : (p c).result with
  | ok a => simp [recovering_of_ok hr] at h
  | error stop =>
    cases stop with
    | pastEnd =>
      rw [recovering_of_pastEnd hr]
      exact hp hr
    | raised b =>
      rw [recovering_of_raised hr] at h ⊢
      apply sated_synchronize (p c).cursor
      cases hs : (synchronize (p c).cursor).result with
      | ok _ => simp [hs, Except.map] at h
      | error stop => simpa [hs, Except.map] using h

/-- A list with an end marker keeps a sated parser from stopping for want of a token. -/
theorem Sated.result_ne {p : Parse α} {c : Cursor} {n : Nat} (hs : p.Sated c)
    (hm : p.Moves NotEnd n) (hc : ∃ t ∈ c.ahead, t.kind = .eof) :
    (p c).result ≠ .error .pastEnd := by
  intro h
  obtain ⟨t, ht, hk⟩ := hc
  have hlast := (hm c).reaches.mem_of_not ht fun hn => hn hk
  rw [hs h] at hlast
  cases hlast

theorem sated_fueled {p : Nat → Parse α} {c : Cursor}
    (h : (p (12 * c.ahead.length + 12)).Sated c) : (fueled p).Sated c :=
  h

theorem extendedBy_of_le {p : Nat → Parse α} (h : ∀ n, (p n).ExtendedBy (p (n + 1))) {m n : Nat}
    (hmn : m ≤ n) : (p m).ExtendedBy (p n) := by
  induction hmn with
  | refl => exact .refl _
  | step _ ih => exact ih.trans (h _)

/-- The fuel for the tokens ahead is as good as any that is enough. -/
theorem fueled_eq {p : Nat → Parse α} (h : ∀ n, (p n).ExtendedBy (p (n + 1))) {c : Cursor} {n : Nat}
    (hend : (fueled p c).result ≠ .error .pastEnd) (hn : (p n c).result ≠ .error .pastEnd) :
    fueled p c = p n c := by
  have hl := extendedBy_of_le h (Nat.le_max_left n (12 * c.ahead.length + 12)) c hn
  have hr := extendedBy_of_le h (Nat.le_max_right n (12 * c.ahead.length + 12)) c hend
  exact hr.symm.trans hl

theorem fueled_eq_of_le {p : Nat → Parse α} (h : ∀ n, (p n).ExtendedBy (p (n + 1))) {c : Cursor}
    {n : Nat} (hn : 12 * c.ahead.length + 12 ≤ n) (hend : (fueled p c).result ≠ .error .pastEnd) :
    fueled p c = p n c :=
  (extendedBy_of_le h hn c hend).symm

end Parse

theorem expression_extendedBy (fuel : Nat) :
    (assignmentFuel fuel).ExtendedBy (assignmentFuel (fuel + 1)) ∧
    (∀ level, (levelFuel fuel level).ExtendedBy (levelFuel (fuel + 1) level)) ∧
    (∀ level, (operandFuel fuel level).ExtendedBy (operandFuel (fuel + 1) level)) ∧
    (∀ level left, (chainFuel fuel level left).ExtendedBy (chainFuel (fuel + 1) level left)) ∧
    (unaryFuel fuel).ExtendedBy (unaryFuel (fuel + 1)) ∧
    (primaryFuel fuel).ExtendedBy (primaryFuel (fuel + 1)) := by
  induction fuel with
  | zero =>
    exact ⟨pastEnd_extendedBy _, fun _ => pastEnd_extendedBy _, fun _ => pastEnd_extendedBy _,
      fun _ _ => pastEnd_extendedBy _, pastEnd_extendedBy _, pastEnd_extendedBy _⟩
  | succ fuel ih =>
    obtain ⟨ha, hl, ho, hc, hu, hp⟩ := ih
    refine ⟨?_, ?_, ?_, ?_, ?_, ?_⟩
    · refine (hl .equality).bind fun left => (ExtendedBy.refl _).bind fun equals => ?_
      cases equals with
      | none => exact .refl _
      | some equals => exact (ExtendedBy.refl _).bind fun pos => ha.bind fun value => .refl _
    · exact fun level => (ho level).bind fun first => hc level first
    · intro level
      unfold operandFuel
      cases level.tighter with
      | some tighter => exact hl tighter
      | none => exact hu
    · intro level left
      refine (ExtendedBy.refl _).bind fun operator => ?_
      cases operator with
      | none => exact .refl _
      | some operator => exact (ho level).bind fun right => hc level _
    · refine (ExtendedBy.refl _).bind fun operator => ?_
      cases operator with
      | none => exact hp
      | some operator => exact hu.bind fun right => .refl _
    · refine (ExtendedBy.refl _).bind fun t => ?_
      cases t with
      | none => exact .refl _
      | some t =>
        dsimp only
        split
        case h_5 => exact ha.bind fun inner => .refl _
        all_goals exact .refl _

theorem statement_extendedBy (fuel : Nat) :
    (declarationFuel fuel).ExtendedBy (declarationFuel (fuel + 1)) ∧
    (statementFuel fuel).ExtendedBy (statementFuel (fuel + 1)) ∧
    (blockFuel fuel).ExtendedBy (blockFuel (fuel + 1)) := by
  induction fuel with
  | zero => exact ⟨pastEnd_extendedBy _, pastEnd_extendedBy _, pastEnd_extendedBy _⟩
  | succ fuel ih =>
    obtain ⟨hd, hs, hb⟩ := ih
    refine ⟨?_, ?_, ?_⟩
    · refine ExtendedBy.recovering ((ExtendedBy.refl _).bind fun word => ?_)
      cases word with
      | none => exact hs
      | some word => exact .refl _
    · refine (ExtendedBy.refl _).bind fun t => ?_
      cases t with
      | none => exact .refl _
      | some t =>
        dsimp only
        split
        · exact .refl _
        · exact hb.bind fun body => .refl _
    · refine (ExtendedBy.refl _).bind fun t => ?_
      split
      · exact .refl _
      · exact hd.bind fun first => hb.bind fun rest => .refl _

theorem program_extendedBy (fuel : Nat) :
    (programFuel fuel).ExtendedBy (programFuel (fuel + 1)) := by
  induction fuel with
  | zero => exact pastEnd_extendedBy _
  | succ fuel ih =>
    refine (ExtendedBy.refl _).bind fun atEnd => ?_
    split
    · exact .refl _
    · exact (statement_extendedBy fuel).1.bind fun first => ih.bind fun rest => .refl _

/-- A result that took a token leaves twelve more fuel for each token still ahead. -/
theorem fuel_of_taken {P : Token → Prop} {p : Parse α} (hp : p.Moves P 1) {c : Cursor} {a : α}
    (ha : (p c).result = .ok a) : (p c).cursor.ahead.length + 1 ≤ c.ahead.length := by
  have hpos := (hp c).taken a ha
  have hlen := (hp c).reaches.pos_add_length
  omega

/-- The calls from an operand of a level down to a token. -/
def Level.depth : Level → Nat
  | .equality => 9
  | .comparison => 7
  | .term => 5
  | .factor => 3

theorem Level.depth_le (level : Level) : level.depth ≤ 9 := by
  cases level <;> decide

theorem expression_sated (fuel : Nat) :
    (∀ c, 12 * c.ahead.length + 11 ≤ fuel → (assignmentFuel fuel).Sated c) ∧
    (∀ level c, 12 * c.ahead.length + level.depth + 1 ≤ fuel → (levelFuel fuel level).Sated c) ∧
    (∀ level c, 12 * c.ahead.length + level.depth ≤ fuel → (operandFuel fuel level).Sated c) ∧
    (∀ level left c, 12 * c.ahead.length + 1 ≤ fuel → (chainFuel fuel level left).Sated c) ∧
    (∀ c, 12 * c.ahead.length + 2 ≤ fuel → (unaryFuel fuel).Sated c) ∧
    (∀ c, 12 * c.ahead.length + 1 ≤ fuel → (primaryFuel fuel).Sated c) := by
  induction fuel with
  | zero =>
    refine ⟨?_, ?_, ?_, ?_, ?_, ?_⟩
    · intro c h
      omega
    · intro level c h
      omega
    · intro level c h
      cases level <;> simp only [Level.depth] at h <;> omega
    · intro level left c h
      omega
    · intro c h
      omega
    · intro c h
      omega
  | succ fuel ih =>
    obtain ⟨ha, hl, ho, hc, hu, hp⟩ := ih
    obtain ⟨hma, hml, hmo, -, hmu, -⟩ := expression_moves fuel
    refine ⟨?_, ?_, ?_, ?_, ?_, ?_⟩
    · intro c h
      refine (hl .equality c (by simp only [Level.depth]; omega)).bind fun left hleft => ?_
      have hlen := fuel_of_taken (hml .equality) hleft
      refine sated_accept_bind (fun equals rest hrest _ => ?_) (sated_pure left _)
      rw [hrest, List.length_cons] at hlen
      refine (sated_of_ok rfl).bind fun pos _ => ?_
      refine (ha _ (by change 12 * rest.length + 11 ≤ fuel; omega)).bind fun value _ => ?_
      split
      · exact sated_pure _ _
      · exact (sated_of_ok rfl).bind fun _ _ => sated_pure _ _
    · intro level c h
      refine (ho level c (by omega)).bind fun first hfirst => hc level first _ ?_
      have hlen := fuel_of_taken (hmo level) hfirst
      omega
    · intro level c h
      unfold operandFuel
      cases level with
      | factor => exact hu c (by simp only [Level.depth] at h; omega)
      | _ => exact hl _ c (by simp only [Level.depth] at h ⊢; omega)
    · intro level left c h
      refine sated_accept_bind (fun operator rest hrest _ => ?_) (sated_pure left c)
      have hd := level.depth_le
      rw [hrest, List.length_cons] at h
      refine (ho level _ (by change 12 * rest.length + _ ≤ fuel; omega)).bind fun right hright => ?_
      have hlen := fuel_of_taken (hmo level) hright
      refine hc level _ _ ?_
      change _ + 1 ≤ rest.length at hlen
      omega
    · intro c h
      refine sated_accept_bind (fun operator rest hrest _ => ?_) (hp c (by omega))
      rw [hrest, List.length_cons] at h
      exact (hu _ (by change 12 * rest.length + 2 ≤ fuel; omega)).bind fun _ _ => sated_pure _ _
    · intro c h
      refine sated_accept_bind (fun t rest hrest _ => ?_) (sated_raiseHere _ c)
      rw [hrest, List.length_cons] at h
      dsimp only
      split
      case h_5 =>
        refine (ha _ (by change 12 * rest.length + 11 ≤ fuel; omega)).bind fun _ _ => ?_
        exact (sated_consume _ _ _).bind fun _ _ => sated_pure _ _
      all_goals exact sated_pure _ _

theorem sated_expression (c : Cursor) : expression.Sated c :=
  sated_fueled (p := assignmentFuel) ((expression_sated _).1 c (by omega))

theorem sated_varDeclaration (c : Cursor) : varDeclaration.Sated c := by
  refine (sated_consume _ _ c).bind fun name _ => sated_accept_bind (fun equals rest _ _ => ?_) ?_
  · exact (sated_expression _).bind fun _ _ => (sated_consume _ _ _).bind fun _ _ => sated_pure _ _
  · exact (sated_consume _ _ _).bind fun _ _ => sated_pure _ _

theorem sated_printStatement (c : Cursor) : printStatement.Sated c :=
  (sated_expression c).bind fun _ _ => (sated_consume _ _ _).bind fun _ _ => sated_pure _ _

theorem sated_expressionStatement (c : Cursor) : expressionStatement.Sated c :=
  (sated_expression c).bind fun _ _ => (sated_consume _ _ _).bind fun _ _ => sated_pure _ _

theorem statement_sated (fuel : Nat) :
    (∀ c, 12 * c.ahead.length + 2 ≤ fuel → (declarationFuel fuel).Sated c) ∧
    (∀ c, 12 * c.ahead.length + 1 ≤ fuel → (statementFuel fuel).Sated c) ∧
    (∀ c, 12 * c.ahead.length + 3 ≤ fuel → (blockFuel fuel).Sated c) := by
  induction fuel with
  | zero => exact ⟨fun c h => by omega, fun c h => by omega, fun c h => by omega⟩
  | succ fuel ih =>
    obtain ⟨hd, hs, hb⟩ := ih
    refine ⟨?_, ?_, ?_⟩
    · intro c h
      exact Sated.recovering (sated_accept_bind (fun _ _ _ _ => sated_varDeclaration _)
        (hs c (by omega)))
    · intro c h
      refine sated_accept_bind (fun t rest hrest _ => ?_) (sated_expressionStatement c)
      rw [hrest, List.length_cons] at h
      dsimp only
      split
      · exact sated_printStatement _
      · exact (hb _ (by change 12 * rest.length + 3 ≤ fuel; omega)).bind fun _ _ => sated_pure _ _
    · intro c h
      refine (sated_peek c).bind fun t ht => ?_
      obtain ⟨pos, _ | ⟨t', rest⟩⟩ := c
      · cases ht
      obtain rfl : t' = t := by cases ht; rfl
      change Sated _ ⟨pos, t' :: rest⟩
      split
      · exact (sated_consume _ _ _).bind fun _ _ => sated_pure _ _
      · next hk =>
        refine (hd ⟨pos, t' :: rest⟩ (by omega)).bind fun first hfirst => ?_
        have hpos := declaration_taken rfl (fun he => hk (.inr he)) hfirst
        have hlen := ((statement_moves fuel).1 ⟨pos, t' :: rest⟩).reaches.pos_add_length
        exact (hb _ (by dsimp only at h hpos hlen; omega)).bind fun _ _ => sated_pure _ _

theorem program_sated (fuel : Nat) (c : Cursor) (h : 12 * c.ahead.length + 3 ≤ fuel) :
    (programFuel fuel).Sated c := by
  induction fuel generalizing c with
  | zero => omega
  | succ fuel ih =>
    refine ((sated_peek c).bind fun t _ => sated_pure _ _).bind fun atEnd hend => ?_
    obtain ⟨pos, _ | ⟨t, rest⟩⟩ := c
    · cases hend
    cases hend
    change Sated _ ⟨pos, t :: rest⟩
    split
    · exact sated_pure _ _
    · next hk =>
      have hne : NotEnd t := by simpa [NotEnd] using hk
      refine ((statement_sated fuel).1 ⟨pos, t :: rest⟩ (by omega)).bind fun first hfirst => ?_
      have hpos := declaration_taken rfl hne hfirst
      have hlen := ((statement_moves fuel).1 ⟨pos, t :: rest⟩).reaches.pos_add_length
      exact (ih _ (by dsimp only at h hpos hlen; omega)).bind fun _ _ => sated_pure _ _

theorem sated_program (c : Cursor) : program.Sated c :=
  sated_fueled (p := programFuel) (program_sated _ c (by omega))

private theorem bind_not_raised {p : Parse α} {f : α → Parse β} {c : Cursor} {b : Complaint}
    (hp : (p c).result ≠ .error (.raised b))
    (hf : ∀ a, (p c).result = .ok a → (f a (p c).cursor).result ≠ .error (.raised b)) :
    ((p >>= f) c).result ≠ .error (.raised b) := by
  cases hr : (p c).result with
  | ok a =>
    rw [bind_of_ok hr]
    exact hf a hr
  | error stop =>
    rw [bind_of_error hr]
    rw [hr] at hp
    simpa using hp

theorem program_not_raised (fuel : Nat) (c : Cursor) (b : Complaint) :
    (programFuel fuel c).result ≠ .error (.raised b) := by
  induction fuel generalizing c with
  | zero => nofun
  | succ fuel ih =>
    refine bind_not_raised (by obtain ⟨pos, _ | ⟨t, rest⟩⟩ := c <;> nofun) fun atEnd _ => ?_
    split
    · nofun
    · refine bind_not_raised ?_ fun first _ => bind_not_raised (ih _) fun rest _ => nofun
      cases fuel with
      | zero => nofun
      | succ fuel => exact recovering_not_raised _ _ b

/-- A list of tokens with an end marker is always parsed to a program. -/
theorem program_ok {c : Cursor} (hc : ∃ t ∈ c.ahead, t.kind = .eof) :
    ∃ ss, (program c).result = .ok ss := by
  cases hr : (program c).result with
  | ok ss => exact ⟨ss, rfl⟩
  | error stop =>
    cases stop with
    | raised b => exact absurd hr (program_not_raised _ c b)
    | pastEnd => exact absurd hr ((sated_program c).result_ne (fun c => program_moves _ c) hc)

end LoxLang.Grammar
