import LoxLang.Proofs.Grammar.Indexed
import LoxLang.Proofs.Grammar.Sequence

/-!
Parsing comes to an end on every list of tokens, with an end marker in it or not. The readers, which
know no bound, nest their calls no deeper than the number of tokens allows, and what they give is
what the parsers with fuel give; they never look back in front of the first token. What stands behind
the first end marker plays no part.
-/
namespace LoxLang.Grammar

/-- The lists are the same up to the first end marker and with it. -/
inductive AlikeToEnd : List Token → List Token → Prop where
  | nil : AlikeToEnd [] []
  | stop {t : Token} (ht : t.kind = .eof) (rest rest' : List Token) :
      AlikeToEnd (t :: rest) (t :: rest')
  | step (t : Token) {rest rest' : List Token} (h : AlikeToEnd rest rest') :
      AlikeToEnd (t :: rest) (t :: rest')

theorem AlikeToEnd.refl (ts : List Token) : AlikeToEnd ts ts := by
  induction ts with
  | nil => exact .nil
  | cons t rest ih => exact .step t ih

/-- Seen from its position, the list is like what the cursor has ahead. -/
def Cursor.Sees (ts : List Token) (c : Cursor) : Prop :=
  AlikeToEnd (ts.drop c.pos) c.ahead

namespace Cursor.Sees

variable {ts : List Token} {pos : Nat} {t : Token} {rest : List Token}

theorem getElem?_nil (h : Cursor.Sees ts ⟨pos, []⟩) : ts[pos]? = none := by
  have hdrop : ts.drop pos = [] := by
    unfold Cursor.Sees at h
    dsimp only at h
    generalize ts.drop pos = l at h
    cases h
    rfl
  rw [← List.head?_drop, hdrop]
  rfl

theorem getElem?_cons (h : Cursor.Sees ts ⟨pos, t :: rest⟩) : ts[pos]? = some t := by
  unfold Cursor.Sees at h
  rw [← List.head?_drop]
  dsimp only at h
  generalize ts.drop pos = l at h ⊢
  cases h <;> rfl

theorem tail (h : Cursor.Sees ts ⟨pos, t :: rest⟩) (ht : t.kind ≠ .eof) :
    Cursor.Sees ts ⟨pos + 1, rest⟩ := by
  unfold Cursor.Sees at h ⊢
  rw [← List.tail_drop]
  dsimp only at h ⊢
  generalize ts.drop pos = l at h ⊢
  cases h with
  | stop he => exact absurd he ht
  | step _ h => exact h

end Cursor.Sees

namespace Indexed

variable {α β : Type} {ts : List Token}

theorem bind_of_ok {d : Reader α} {g : α → Reader β} {s s' : State} {a : α}
    (h : d s = some (.ok a, s')) : (d >>= g) s = g a s' := by
  simp only [bind, ExceptT.bind, ExceptT.mk, StateT.bind, h]
  rfl

theorem bind_of_error {d : Reader α} {g : α → Reader β} {s s' : State} {stop : Stop}
    (h : d s = some (.error stop, s')) : (d >>= g) s = some (.error stop, s') := by
  simp only [bind, ExceptT.bind, ExceptT.mk, StateT.bind, h]
  rfl

/-- From the place of the cursor the reader has the outcome, whatever was reported before, and it
looks back from positions behind the first token only. -/
def Has (ts : List Token) (d : Reader α) (c : Cursor) (o : Outcome α) : Prop :=
  c.Sees ts → ∀ complaints glances, ∃ more,
    d ⟨c.pos, complaints, glances⟩ =
      some (o.result, ⟨o.cursor.pos, complaints ++ o.complaints, glances ++ more⟩) ∧
    (∀ n ∈ more, 0 < n) ∧ o.cursor.Sees ts

theorem has_bind {d : Reader α} {g : α → Reader β} {p : Parse α} {f : α → Parse β} {c : Cursor}
    (hd : Has ts d c (p c))
    (hg : ∀ a, (p c).result = .ok a → Has ts (g a) (p c).cursor (f a (p c).cursor)) :
    Has ts (d >>= g) c ((p >>= f) c) := by
  intro hc complaints glances
  obtain ⟨more, hrun, hmore, hsees⟩ := hd hc complaints glances
  cases hr : (p c).result with
  | error stop =>
    rw [hr] at hrun
    rw [Parse.bind_of_error hr]
    exact ⟨more, bind_of_error hrun, hmore, hsees⟩
  | ok a =>
    rw [hr] at hrun
    rw [Parse.bind_of_ok hr]
    obtain ⟨more', hrun', hmore', hsees'⟩ :=
      hg a hr hsees (complaints ++ (p c).complaints) (glances ++ more)
    refine ⟨more ++ more', ?_, List.forall_mem_append.mpr ⟨hmore, hmore'⟩, hsees'⟩
    rw [bind_of_ok hrun, hrun', List.append_assoc, List.append_assoc]

theorem has_pure (a : α) (c : Cursor) : Has ts (pure a) c ⟨.ok a, c, []⟩ := by
  intro hc complaints glances
  refine ⟨[], ?_, nofun, hc⟩
  simp only [List.append_nil]
  rfl

theorem has_position (c : Cursor) : Has ts position c (Parse.position c) := by
  intro hc complaints glances
  refine ⟨[], ?_, nofun, hc⟩
  simp only [Parse.position, List.append_nil]
  rfl

theorem has_report (blame : Complaint) (c : Cursor) :
    Has ts (report blame) c (Parse.complain blame c) := by
  intro hc complaints glances
  refine ⟨[], ?_, nofun, hc⟩
  simp only [Parse.complain, List.append_nil]
  rfl

/-! What the steps do, by the token at the position. -/

section steps

variable {s : State} {t : Token} {kind : TokenKind}

theorem peek_of_some (h : ts[s.pos]? = some t) : peek ts s = some (.ok t, s) := by
  have hget : (get : Reader State) s = some (.ok s, s) := rfl
  refine (bind_of_ok hget).trans ?_
  rw [h]
  rfl

theorem peek_of_none (h : ts[s.pos]? = none) : peek ts s = some (.error .pastEnd, s) := by
  have hget : (get : Reader State) s = some (.ok s, s) := rfl
  refine (bind_of_ok hget).trans ?_
  rw [h]
  rfl

theorem atEnd_of_some (h : ts[s.pos]? = some t) :
    atEnd ts s = some (.ok (decide (t.kind = .eof)), s) :=
  bind_of_ok (peek_of_some h)

theorem atEnd_of_none (h : ts[s.pos]? = none) : atEnd ts s = some (.error .pastEnd, s) :=
  bind_of_error (peek_of_none h)

theorem check_of_kind (h : ts[s.pos]? = some t) (hend : t.kind ≠ .eof) :
    check ts t.kind s = some (.ok true, s) := by
  have hcontinue := atEnd_of_some h
  rw [decide_eq_false hend] at hcontinue
  refine (bind_of_ok hcontinue).trans ?_
  refine (bind_of_ok (peek_of_some h)).trans ?_
  rw [decide_eq_true rfl]
  rfl

theorem check_of_not (h : ts[s.pos]? = some t) (ht : ¬ (t.kind ≠ .eof ∧ t.kind = kind)) :
    check ts kind s = some (.ok false, s) := by
  refine (bind_of_ok (atEnd_of_some h)).trans ?_
  by_cases hend : t.kind = .eof
  · rw [decide_eq_true hend, if_pos rfl]
    rfl
  · have hkind : t.kind ≠ kind := fun hk => ht ⟨hend, hk⟩
    rw [decide_eq_false hend, if_neg Bool.false_ne_true]
    refine (bind_of_ok (peek_of_some h)).trans ?_
    rw [decide_eq_false hkind]
    rfl

theorem check_of_none (h : ts[s.pos]? = none) (kind : TokenKind) :
    check ts kind s = some (.error .pastEnd, s) :=
  bind_of_error (atEnd_of_none h)

theorem previous_of_some {pos : Nat} {complaints : List Complaint} {glances : List Nat}
    (h : ts[pos]? = some t) :
    previous ts ⟨pos + 1, complaints, glances⟩ =
      some (.ok t, ⟨pos + 1, complaints, glances ++ [pos + 1]⟩) := by
  have hprevious : (Stepper.mk ts (pos + 1)).previous = .ok t := by
    simp [Stepper.previous, h]
  unfold previous
  refine (bind_of_ok rfl).trans ((bind_of_ok rfl).trans ?_)
  dsimp only
  rw [hprevious]
  rfl

theorem advance_of_not_end {pos : Nat} {complaints : List Complaint} {glances : List Nat}
    (h : ts[pos]? = some t) (ht : t.kind ≠ .eof) :
    advance ts ⟨pos, complaints, glances⟩ =
      some (.ok t, ⟨pos + 1, complaints, glances ++ [pos + 1]⟩) := by
  refine (bind_of_ok (atEnd_of_some h)).trans ?_
  rw [decide_eq_false ht, if_neg Bool.false_ne_true]
  exact (bind_of_ok rfl).trans (previous_of_some h)

theorem accept_of_not (h : ts[s.pos]? = some t) {kinds : List TokenKind}
    (ht : ¬ (t.kind ≠ .eof ∧ t.kind ∈ kinds)) : accept ts kinds s = some (.ok false, s) := by
  induction kinds with
  | nil => rfl
  | cons kind kinds ih =>
    have hkind : ¬ (t.kind ≠ .eof ∧ t.kind = kind) :=
      fun hk => ht ⟨hk.1, hk.2 ▸ List.mem_cons_self ..⟩
    have hkinds : ¬ (t.kind ≠ .eof ∧ t.kind ∈ kinds) :=
      fun hk => ht ⟨hk.1, List.mem_cons_of_mem _ hk.2⟩
    refine (bind_of_ok (check_of_not h hkind)).trans ?_
    rw [if_neg Bool.false_ne_true]
    exact ih hkinds

theorem accept_of_mem {pos : Nat} {complaints : List Complaint} {glances : List Nat}
    (h : ts[pos]? = some t) (hend : t.kind ≠ .eof) {kinds : List TokenKind} (ht : t.kind ∈ kinds) :
    accept ts kinds ⟨pos, complaints, glances⟩ =
      some (.ok true, ⟨pos + 1, complaints, glances ++ [pos + 1]⟩) := by
  induction kinds with
  | nil => cases ht
  | cons kind kinds ih =>
    by_cases hkind : t.kind = kind
    · subst hkind
      refine (bind_of_ok (check_of_kind (s := ⟨pos, complaints, glances⟩) h hend)).trans ?_
      rw [if_pos rfl]
      exact bind_of_ok (advance_of_not_end h hend)
    · have hmem : t.kind ∈ kinds := (List.mem_cons.mp ht).resolve_left hkind
      have hnot : ¬ (t.kind ≠ .eof ∧ t.kind = kind) := fun hk => hkind hk.2
      refine (bind_of_ok (check_of_not (s := ⟨pos, complaints, glances⟩) h hnot)).trans ?_
      rw [if_neg Bool.false_ne_true]
      exact ih hmem

theorem accept_of_none (h : ts[s.pos]? = none) (kind : TokenKind) (kinds : List TokenKind) :
    accept ts (kind :: kinds) s = some (.error .pastEnd, s) :=
  bind_of_error (check_of_none h kind)

end steps

/-! The outcomes of the steps from a cursor. -/

variable {c c' : Cursor} {o : Outcome α}

/-- A reader behind a step without complaint starts where that got to. -/
theorem has_then {d : Reader β} {g : β → Reader α} {b : β} (hd : Has ts d c ⟨.ok b, c', []⟩)
    (hg : c.Sees ts → Has ts (g b) c' o) : Has ts (d >>= g) c o := by
  intro hc complaints glances
  obtain ⟨more, hrun, hmore, hsees⟩ := hd hc complaints glances
  obtain ⟨more', hrun', hmore', hsees'⟩ := hg hc hsees complaints (glances ++ more)
  rw [List.append_nil] at hrun
  refine ⟨more ++ more', ?_, List.forall_mem_append.mpr ⟨hmore, hmore'⟩, hsees'⟩
  rw [bind_of_ok hrun, hrun', List.append_assoc]

theorem has_then_error {d : Reader β} {stop : Stop} {cs : List Complaint}
    (hd : Has ts d c ⟨.error stop, c', cs⟩) (g : β → Reader α) :
    Has ts (d >>= g) c ⟨.error stop, c', cs⟩ := by
  intro hc complaints glances
  obtain ⟨more, hrun, hmore, hsees⟩ := hd hc complaints glances
  exact ⟨more, bind_of_error hrun, hmore, hsees⟩

section

variable {pos : Nat} {t : Token} {rest : List Token} {kind : TokenKind} {kinds : List TokenKind}

/-- A step that only looks at the token at the cursor. -/
private theorem has_of_look {d : Reader α} {result : Except Stop α}
    (h : c.Sees ts → ∀ complaints glances,
      d ⟨c.pos, complaints, glances⟩ = some (result, ⟨c.pos, complaints, glances⟩)) :
    Has ts d c ⟨result, c, []⟩ := by
  intro hc complaints glances
  refine ⟨[], ?_, nofun, hc⟩
  simpa using h hc complaints glances

/-- A step to behind the token at the cursor. -/
private theorem has_of_move {d : Reader α} {a : α} (ht : t.kind ≠ .eof)
    (h : ts[pos]? = some t → ∀ complaints glances, d ⟨pos, complaints, glances⟩ =
      some (.ok a, ⟨pos + 1, complaints, glances ++ [pos + 1]⟩)) :
    Has ts d ⟨pos, t :: rest⟩ ⟨.ok a, ⟨pos + 1, rest⟩, []⟩ := by
  intro hc complaints glances
  have hglance : ∀ n ∈ [pos + 1], 0 < n := List.forall_mem_singleton.mpr (Nat.succ_pos pos)
  refine ⟨[pos + 1], ?_, hglance, hc.tail ht⟩
  simpa using h hc.getElem?_cons complaints glances

theorem has_peek (c : Cursor) : Has ts (peek ts) c (Parse.peek c) := by
  obtain ⟨pos, _ | ⟨t, rest⟩⟩ := c
  · exact has_of_look fun hc _ _ => peek_of_none hc.getElem?_nil
  · exact has_of_look fun hc _ _ => peek_of_some hc.getElem?_cons

theorem has_atEnd : Has ts (atEnd ts) ⟨pos, t :: rest⟩
    ⟨.ok (decide (t.kind = .eof)), ⟨pos, t :: rest⟩, []⟩ :=
  has_of_look fun hc _ _ => atEnd_of_some hc.getElem?_cons

theorem has_atEnd_nil : Has ts (atEnd ts) ⟨pos, []⟩ ⟨.error .pastEnd, ⟨pos, []⟩, []⟩ :=
  has_of_look fun hc _ _ => atEnd_of_none hc.getElem?_nil

theorem has_check_of_kind (ht : t.kind ≠ .eof) :
    Has ts (check ts t.kind) ⟨pos, t :: rest⟩ ⟨.ok true, ⟨pos, t :: rest⟩, []⟩ :=
  has_of_look fun hc _ _ => check_of_kind hc.getElem?_cons ht

theorem has_check_of_not (ht : ¬ (t.kind ≠ .eof ∧ t.kind = kind)) :
    Has ts (check ts kind) ⟨pos, t :: rest⟩ ⟨.ok false, ⟨pos, t :: rest⟩, []⟩ :=
  has_of_look fun hc _ _ => check_of_not hc.getElem?_cons ht

theorem has_check_nil :
    Has ts (check ts kind) ⟨pos, []⟩ ⟨.error .pastEnd, ⟨pos, []⟩, []⟩ :=
  has_of_look fun hc _ _ => check_of_none hc.getElem?_nil kind

theorem has_previous (ht : ts[pos]? = some t) :
    Has ts (previous ts) ⟨pos + 1, rest⟩ ⟨.ok t, ⟨pos + 1, rest⟩, []⟩ := by
  intro hc complaints glances
  have hglance : ∀ n ∈ [pos + 1], 0 < n := List.forall_mem_singleton.mpr (Nat.succ_pos pos)
  refine ⟨[pos + 1], ?_, hglance, hc⟩
  simpa using previous_of_some ht

theorem has_advance (ht : t.kind ≠ .eof) :
    Has ts (advance ts) ⟨pos, t :: rest⟩ ⟨.ok t, ⟨pos + 1, rest⟩, []⟩ :=
  has_of_move ht fun h _ _ => advance_of_not_end h ht

theorem has_accept_of_mem (hend : t.kind ≠ .eof) (ht : t.kind ∈ kinds) :
    Has ts (accept ts kinds) ⟨pos, t :: rest⟩ ⟨.ok true, ⟨pos + 1, rest⟩, []⟩ :=
  has_of_move hend fun h _ _ => accept_of_mem h hend ht

theorem has_accept_of_not (ht : ¬ (t.kind ≠ .eof ∧ t.kind ∈ kinds)) :
    Has ts (accept ts kinds) ⟨pos, t :: rest⟩ ⟨.ok false, ⟨pos, t :: rest⟩, []⟩ :=
  has_of_look fun hc _ _ => accept_of_not hc.getElem?_cons ht

theorem has_accept_nil (hkinds : kinds ≠ []) :
    Has ts (accept ts kinds) ⟨pos, []⟩ ⟨.error .pastEnd, ⟨pos, []⟩, []⟩ := by
  obtain ⟨kind, kinds, rfl⟩ := List.exists_cons_of_ne_nil hkinds
  exact has_of_look fun hc _ _ => accept_of_none hc.getElem?_nil kind kinds

end

section

variable {pos : Nat} {t : Token} {rest : List Token} {kinds : List TokenKind} {x y : Reader α}

theorem has_taken (hend : t.kind ≠ .eof) (ht : t.kind ∈ kinds)
    (hx : ts[pos]? = some t → Has ts x ⟨pos + 1, rest⟩ o) :
    Has ts (accept ts kinds >>= fun b => if b = true then x else y) ⟨pos, t :: rest⟩ o :=
  has_then (has_accept_of_mem hend ht) fun hc => hx hc.getElem?_cons

theorem has_passed (ht : ¬ (t.kind ≠ .eof ∧ t.kind ∈ kinds)) (hy : Has ts y ⟨pos, t :: rest⟩ o) :
    Has ts (accept ts kinds >>= fun b => if b = true then x else y) ⟨pos, t :: rest⟩ o :=
  has_then (has_accept_of_not ht) fun _ => hy

end

/-- A choice by the token at the cursor. -/
theorem has_choice {kinds : List TokenKind} (hkinds : kinds ≠ []) {x y : Reader α}
    {f : Option Token → Parse α}
    (hx : ∀ t rest, c.ahead = t :: rest → t.kind ∈ kinds → ts[c.pos]? = some t →
      Has ts x ⟨c.pos + 1, rest⟩ (f (some t) ⟨c.pos + 1, rest⟩))
    (hy : Has ts y c (f none c)) :
    Has ts (accept ts kinds >>= fun b => if b = true then x else y) c
      ((Parse.accept kinds >>= f) c) := by
  obtain ⟨pos, _ | ⟨t, rest⟩⟩ := c
  · exact has_then_error (has_accept_nil hkinds) _
  by_cases ht : t.kind ≠ .eof ∧ t.kind ∈ kinds
  · rw [Parse.accept_bind_of_mem ht.1 ht.2]
    exact has_taken ht.1 ht.2 (hx t rest rfl ht.2)
  · rw [Parse.accept_bind_of_not ht]
    exact has_passed ht hy

theorem has_raiseHere (problem : Problem) (c : Cursor) :
    Has ts (raiseHere ts problem : Reader α) c ((Parse.raiseHere problem : Parse α) c) := by
  have hraise (blame : Complaint) (c : Cursor) :
      Has ts (report blame >>= fun _ => throw (.raised blame) : Reader α) c
        (Parse.raise blame c) := by
    intro hc complaints glances
    refine ⟨[], ?_, nofun, hc⟩
    rw [List.append_nil]
    rfl
  exact has_bind (has_peek c) fun t _ => has_bind (has_position _) fun pos _ => hraise _ _

theorem has_consume (kind : TokenKind) (problem : Problem) (c : Cursor) :
    Has ts (consume ts kind problem) c (Parse.consume kind problem c) := by
  obtain ⟨pos, _ | ⟨t, rest⟩⟩ := c
  · exact has_then_error has_check_nil _
  by_cases ht : t.kind ≠ .eof ∧ t.kind = kind
  · obtain ⟨hend, rfl⟩ := ht
    have hconsume : Parse.consume t.kind problem ⟨pos, t :: rest⟩ = ⟨.ok t, ⟨pos + 1, rest⟩, []⟩ :=
      Parse.accept_bind_of_mem hend (List.mem_singleton_self _) pos rest
    rw [hconsume]
    exact has_then (has_check_of_kind hend) fun _ => has_advance hend
  · have hconsume : Parse.consume kind problem ⟨pos, t :: rest⟩ =
        (Parse.raiseHere problem : Parse Token) ⟨pos, t :: rest⟩ :=
      Parse.accept_bind_of_not (fun h => ht ⟨h.1, List.mem_singleton.mp h.2⟩) pos rest
    rw [hconsume]
    exact has_then (has_check_of_not ht) fun _ => has_raiseHere problem _

/-! Recovery. -/

theorem has_skip {last : Token} {pos : Nat} (hlast : ts[pos]? = some last) {rest : List Token}
    {depth : Nat} (h : rest.length + 1 ≤ depth) :
    Has ts (rules ts depth).skip ⟨pos + 1, rest⟩ (Parse.skipTo last (pos + 1) rest) := by
  induction rest generalizing last pos depth with
  | nil =>
    obtain ⟨depth, rfl⟩ := Nat.exists_eq_add_of_le' h
    exact has_then_error has_atEnd_nil _
  | cons t rest ih =>
    obtain ⟨depth, rfl⟩ := Nat.exists_eq_add_of_le' (Nat.le_of_add_left_le h)
    have hpeek : Has ts (peek ts) ⟨pos + 1, t :: rest⟩ _ := has_peek _
    change Has ts (skip ts (rules ts depth)) _ _
    rw [skip, Parse.skipTo]
    by_cases hend : t.kind = .eof
    · rw [if_pos (.inl hend)]
      refine has_then has_atEnd fun _ => ?_
      rw [if_pos (decide_eq_true hend)]
      exact has_pure () _
    · refine has_then has_atEnd fun hc => ?_
      rw [if_neg (by simpa using hend)]
      refine has_then (has_previous hlast) fun _ => ?_
      by_cases hsemicolon : last.kind = .semicolon
      · rw [if_pos hsemicolon, if_pos (.inr (.inl hsemicolon))]
        exact has_pure () _
      · rw [if_neg hsemicolon]
        refine has_then hpeek fun _ => ?_
        by_cases hword : t.kind.startsStatement = true
        · rw [if_pos hword, if_pos (.inr (.inr hword))]
          exact has_pure () _
        · rw [if_neg hword, if_neg (by simp [hend, hsemicolon, hword])]
          exact has_then (has_advance hend) fun _ => ih hc.getElem?_cons (Nat.le_of_succ_le_succ h)

/-- Recovery does not look back in front of the first token, unless it starts at an end marker in
that place. -/
theorem has_synchronize (h : ∀ t ∈ c.ahead.head?, t.kind = .eof → 0 < c.pos) {depth : Nat}
    (hdepth : c.ahead.length + 1 ≤ depth) :
    Has ts (synchronize ts (rules ts depth)) c (Parse.synchronize c) := by
  obtain ⟨pos, _ | ⟨t, rest⟩⟩ := c
  · have hadvance : Has ts (advance ts) ⟨pos, []⟩ ⟨.error .pastEnd, ⟨pos, []⟩, []⟩ :=
      has_then_error has_atEnd_nil _
    exact has_then_error hadvance _
  by_cases hend : t.kind = .eof
  · obtain ⟨n, rfl⟩ : ∃ n, pos = n + 1 :=
      Nat.exists_eq_succ_of_ne_zero (Nat.ne_of_gt (h t rfl hend))
    have hsync : Parse.synchronize ⟨n + 1, t :: rest⟩ = ⟨.ok (), ⟨n + 1, t :: rest⟩, []⟩ :=
      if_pos hend
    rw [hsync]
    intro hc
    -- the tokens before the end marker are there to look at
    have hbound : n < ts.length :=
      Nat.lt_of_succ_lt (List.getElem?_eq_some_iff.mp hc.getElem?_cons).1
    have hadvance : Has ts (advance ts) ⟨n + 1, t :: rest⟩ ⟨.ok ts[n], ⟨n + 1, t :: rest⟩, []⟩ := by
      refine has_then has_atEnd fun _ => ?_
      rw [if_pos (decide_eq_true hend)]
      exact has_previous (List.getElem?_eq_getElem hbound)
    have hskip : Has ts (rules ts depth).skip ⟨n + 1, t :: rest⟩
        ⟨.ok (), ⟨n + 1, t :: rest⟩, []⟩ := by
      obtain ⟨depth, rfl⟩ := Nat.exists_eq_add_of_le' (Nat.le_of_add_left_le hdepth)
      refine has_then has_atEnd fun _ => ?_
      rw [if_pos (decide_eq_true hend)]
      exact has_pure () _
    exact has_then hadvance (fun _ => hskip) hc
  · have hsync : Parse.synchronize ⟨pos, t :: rest⟩ = Parse.skipTo t (pos + 1) rest := if_neg hend
    rw [hsync]
    exact has_then (has_advance hend) fun hc => has_skip hc.getElem?_cons (Nat.le_of_succ_le hdepth)

/-- The kinds are tried one after the other by the reader and all at once by the parser. -/
theorem has_primary {r : Rules} {fuel : Nat} {c : Cursor}
    (ha : ∀ c', c'.ahead.length + 1 ≤ c.ahead.length →
      Has ts r.assignment c' (assignmentFuel fuel c')) :
    Has ts (primary ts r) c (primaryFuel (fuel + 1) c) := by
  rw [primary]
  obtain ⟨pos, _ | ⟨t, rest⟩⟩ := c
  · exact has_then_error (has_accept_nil (List.cons_ne_nil _ _)) _
  by_cases ht : t.kind ≠ .eof ∧ t.kind ∈
      [TokenKind.falseWord, .trueWord, .nilWord, .number, .string, .identifier, .leftParen]
  · obtain ⟨hend, hk⟩ := ht
    have hparse : primaryFuel (fuel + 1) ⟨pos, t :: rest⟩ = _ :=
      Parse.accept_bind_of_mem hend hk pos rest
    rw [hparse]
    simp only [List.mem_cons, List.not_mem_nil, or_false] at hk
    rcases hk with hk | hk | hk | hk | hk | hk | hk <;> simp only [hk]
    · exact has_taken hend (by simp [hk]) fun _ => has_pure _ _
    · refine has_passed (by simp [hk]) ?_
      exact has_taken hend (by simp [hk]) fun _ => has_pure _ _
    · refine has_passed (by simp [hk]) (has_passed (by simp [hk]) ?_)
      exact has_taken hend (by simp [hk]) fun _ => has_pure _ _
    · refine has_passed (by simp [hk]) (has_passed (by simp [hk]) (has_passed (by simp [hk]) ?_))
      refine has_taken hend (by simp [hk]) fun hget => ?_
      exact has_then (has_previous hget) fun _ => has_pure _ _
    · refine has_passed (by simp [hk]) (has_passed (by simp [hk]) (has_passed (by simp [hk]) ?_))
      refine has_taken hend (by simp [hk]) fun hget => ?_
      exact has_then (has_previous hget) fun _ => has_pure _ _
    · refine has_passed (by simp [hk]) (has_passed (by simp [hk]) (has_passed (by simp [hk]) ?_))
      refine has_passed (by simp [hk]) (has_taken hend (by simp [hk]) fun hget => ?_)
      exact has_then (has_previous hget) fun _ => has_pure _ _
    · refine has_passed (by simp [hk]) (has_passed (by simp [hk]) (has_passed (by simp [hk]) ?_))
      refine has_passed (by simp [hk]) (has_passed (by simp [hk]) ?_)
      refine has_taken hend (by simp [hk]) fun _ => ?_
      have hinner : Has ts r.assignment ⟨pos + 1, rest⟩ (assignmentFuel fuel ⟨pos + 1, rest⟩) :=
        ha _ (Nat.le_refl _)
      exact has_bind hinner fun inner _ => has_bind (has_consume _ _ _) fun _ _ => has_pure _ _
  · have hparse : primaryFuel (fuel + 1) ⟨pos, t :: rest⟩ = _ :=
      Parse.accept_bind_of_not ht pos rest
    have hpassed {kinds : List TokenKind} (hkinds : kinds ⊆
        [TokenKind.falseWord, .trueWord, .nilWord, .number, .string, .identifier, .leftParen]) :
        ¬ (t.kind ≠ .eof ∧ t.kind ∈ kinds) :=
      fun h => ht ⟨h.1, hkinds h.2⟩
    rw [hparse]
    refine has_passed (hpassed (by simp)) (has_passed (hpassed (by simp)) ?_)
    refine has_passed (hpassed (by simp)) (has_passed (hpassed (by simp)) ?_)
    refine has_passed (hpassed (by simp)) (has_passed (hpassed (by simp)) ?_)
    exact has_raiseHere _ _

/-! The rules for expressions, with enough fuel for the parsers beside them and as much depth. -/

theorem expression_has (fuel : Nat) {depth : Nat} (hdepth : fuel ≤ depth) :
    (∀ c, 12 * c.ahead.length + 11 ≤ fuel →
      Has ts (rules ts depth).assignment c (assignmentFuel fuel c)) ∧
    (∀ l c, 12 * c.ahead.length + l.depth + 1 ≤ fuel →
      Has ts ((rules ts depth).level l) c (levelFuel fuel l c)) ∧
    (∀ l c, 12 * c.ahead.length + l.depth ≤ fuel →
      Has ts ((rules ts depth).operand l) c (operandFuel fuel l c)) ∧
    (∀ l left c, 12 * c.ahead.length + 1 ≤ fuel →
      Has ts ((rules ts depth).chain l left) c (chainFuel fuel l left c)) ∧
    (∀ c, 12 * c.ahead.length + 2 ≤ fuel → Has ts (rules ts depth).unary c (unaryFuel fuel c)) ∧
    (∀ c, 12 * c.ahead.length + 1 ≤ fuel →
      Has ts (rules ts depth).primary c (primaryFuel fuel c)) := by
  induction fuel generalizing depth with
  | zero =>
    refine ⟨?_, ?_, ?_, ?_, ?_, ?_⟩
    · intro c h
      omega
    · intro l c h
      omega
    · intro l c h
      cases l <;> simp only [Level.depth] at h <;> omega
    · intro l left c h
      omega
    · intro c h
      omega
    · intro c h
      omega
  | succ fuel ih =>
    obtain ⟨depth, rfl⟩ := Nat.exists_eq_add_of_le' (Nat.le_of_add_left_le hdepth)
    obtain ⟨ha, hl, ho, hc, hu, hp⟩ := ih (Nat.le_of_succ_le_succ hdepth)
    obtain ⟨hma, hml, hmo, -, hmu, -⟩ := expression_moves fuel
    refine ⟨?_, ?_, ?_, ?_, ?_, ?_⟩
    · intro c h
      change Has ts (assignment ts (rules ts depth)) _ _
      rw [assignment]
      refine has_bind (hl .equality c (by simp only [Level.depth]; omega)) fun left hleft => ?_
      have hlen := fuel_of_taken (hml .equality) hleft
      refine has_choice (List.cons_ne_nil _ _) (fun equals rest hrest hk hget => ?_)
        (has_pure left _)
      rw [hrest, List.length_cons] at hlen
      refine has_then (has_previous hget) fun _ => ?_
      refine has_bind (has_position _) fun pos _ => ?_
      have hvalue : 12 * rest.length + 11 ≤ fuel := by omega
      refine has_bind (ha _ hvalue) fun value _ => ?_
      cases left with
      | «variable» name => exact has_pure _ _
      | _ => exact has_bind (has_report _ _) fun _ _ => has_pure _ _
    · intro l c h
      change Has ts (level (rules ts depth) l) _ _
      rw [level]
      refine has_bind (ho l c (by omega)) fun first hfirst => ?_
      have hlen := fuel_of_taken (hmo l) hfirst
      exact hc l first _ (by omega)
    · intro l c h
      change Has ts (operand (rules ts depth) l) _ _
      rw [operand]
      unfold operandFuel
      cases l with
      | factor => exact hu c (by simp only [Level.depth] at h; omega)
      | _ => exact hl _ c (by simp only [Level.depth] at h ⊢; omega)
    · intro l left c h
      change Has ts (chain ts (rules ts depth) l left) _ _
      rw [chain]
      have hkinds : l.operators ≠ [] := by cases l <;> simp [Level.operators]
      refine has_choice hkinds (fun operator rest hrest _ hget => ?_) (has_pure left c)
      have hdepth := l.depth_le
      rw [hrest, List.length_cons] at h
      refine has_then (has_previous hget) fun _ => ?_
      have hright : 12 * rest.length + l.depth ≤ fuel := by omega
      refine has_bind (ho l _ hright) fun right hresult => ?_
      have hlen := fuel_of_taken (hmo l) hresult
      dsimp only at hlen
      exact hc l _ _ (by omega)
    · intro c h
      change Has ts (unary ts (rules ts depth)) _ _
      rw [unary]
      refine has_choice (List.cons_ne_nil _ _) (fun operator rest hrest _ hget => ?_)
        (hp c (by omega))
      rw [hrest, List.length_cons] at h
      refine has_then (has_previous hget) fun _ => ?_
      have hright : 12 * rest.length + 2 ≤ fuel := by omega
      exact has_bind (hu _ hright) fun right _ => has_pure _ _
    · intro c h
      exact has_primary fun c' hc' => ha c' (by omega)

theorem has_expression {depth : Nat} (hdepth : 12 * c.ahead.length + 12 ≤ depth) :
    Has ts (rules ts depth).assignment c (expression c) :=
  (expression_has _ hdepth).1 c (by omega)

/-! The rules for statements, with depth for the expressions in them. -/

theorem has_varDeclaration {depth : Nat} (hdepth : 12 * c.ahead.length + 12 ≤ depth) :
    Has ts (varDeclaration ts (rules ts depth)) c (Grammar.varDeclaration c) := by
  have hmoves : (Parse.consume .identifier .expectName).Moves (fun _ => True) 1 :=
    Parse.moves_consume _ fun _ _ => trivial
  refine has_bind (has_consume _ _ c) fun name hname => ?_
  have hlen := fuel_of_taken hmoves hname
  refine has_choice (List.cons_ne_nil _ _) (fun equals rest hrest _ _ => ?_) ?_
  · rw [hrest, List.length_cons] at hlen
    have hvalue : 12 * rest.length + 12 ≤ depth := by omega
    exact has_bind (has_expression hvalue) fun value _ =>
      has_bind (has_consume _ _ _) fun _ _ => has_pure _ _
  · exact has_bind (has_consume _ _ _) fun _ _ => has_pure _ _

theorem has_printStatement {depth : Nat} (hdepth : 12 * c.ahead.length + 12 ≤ depth) :
    Has ts (printStatement ts (rules ts depth)) c (Grammar.printStatement c) :=
  has_bind (has_expression hdepth) fun _ _ => has_bind (has_consume _ _ _) fun _ _ => has_pure _ _

theorem has_expressionStatement {depth : Nat} (hdepth : 12 * c.ahead.length + 12 ≤ depth) :
    Has ts (expressionStatement ts (rules ts depth)) c (Grammar.expressionStatement c) :=
  has_bind (has_expression hdepth) fun _ _ => has_bind (has_consume _ _ _) fun _ _ => has_pure _ _

/-- In front of a token other than the end marker, a construct that was given up leaves recovery a
token to look back at. -/
theorem has_recovering {p : Parse Stmt} {n : Nat} (hp : p.Moves NotEnd n) {d : Reader Stmt}
    {t : Token} (hhead : c.ahead.head? = some t) (ht : t.kind ≠ .eof) (hd : Has ts d c (p c))
    {depth : Nat} (hdepth : c.ahead.length + 1 ≤ depth) :
    Has ts (recovering ts (rules ts depth) d) c (Parse.recovering p c) := by
  intro hc complaints glances
  obtain ⟨more, hrun, hmore, hsees⟩ := hd hc complaints glances
  have hbind : recovering ts (rules ts depth) d ⟨c.pos, complaints, glances⟩ =
      recover ts (rules ts depth) (p c).result
        ⟨(p c).cursor.pos, complaints ++ (p c).complaints, glances ++ more⟩ := by
    change (d ⟨c.pos, complaints, glances⟩).bind _ = _
    rw [hrun]
    rfl
  rw [hbind]
  cases hr : (p c).result with
  | ok s =>
    rw [recovering_of_ok hr]
    exact ⟨more, rfl, hmore, hsees⟩
  | error stop =>
    cases stop with
    | pastEnd =>
      rw [recovering_of_pastEnd hr]
      exact ⟨more, rfl, hmore, hsees⟩
    | raised b =>
      have hreaches := (hp c).reaches
      have hback : ∀ u ∈ (p c).cursor.ahead.head?, u.kind = .eof → 0 < (p c).cursor.pos := by
        intro u hu hend
        rcases Nat.eq_or_lt_of_le hreaches.pos_le with hpos | hpos
        · rw [← hreaches.eq_of_pos_eq hpos, hhead] at hu
          cases hu
          exact absurd hend ht
        · exact Nat.zero_lt_of_lt hpos
      have hleft : (p c).cursor.ahead.length + 1 ≤ depth := by
        have hlen := hreaches.pos_add_length
        have hpos := hreaches.pos_le
        omega
      have hsync : Has ts (synchronize ts (rules ts depth) >>= fun _ => pure none)
          (p c).cursor ((Parse.synchronize >>= fun _ => pure (none : Option Stmt)) (p c).cursor) :=
        has_bind (has_synchronize hback hleft) fun _ _ => has_pure none _
      rw [Parse.bind_pure_apply] at hsync
      obtain ⟨more', hrun', hmore', hsees'⟩ :=
        hsync hsees (complaints ++ (p c).complaints) (glances ++ more)
      rw [recovering_of_raised hr]
      refine ⟨more ++ more', ?_, List.forall_mem_append.mpr ⟨hmore, hmore'⟩, hsees'⟩
      rw [List.append_assoc, List.append_assoc] at hrun'
      exact hrun'

theorem statement_has (fuel : Nat) {depth : Nat} (hdepth : fuel + 12 ≤ depth) :
    (∀ c t, c.ahead.head? = some t → t.kind ≠ .eof → 12 * c.ahead.length + 2 ≤ fuel →
      Has ts (rules ts depth).declaration c (declarationFuel fuel c)) ∧
    (∀ c, 12 * c.ahead.length + 1 ≤ fuel →
      Has ts (rules ts depth).statement c (statementFuel fuel c)) ∧
    (∀ c, 12 * c.ahead.length + 3 ≤ fuel → Has ts (rules ts depth).block c (blockFuel fuel c)) := by
  induction fuel generalizing depth with
  | zero =>
    refine ⟨?_, ?_, ?_⟩
    · intro c t _ _ h
      omega
    · intro c h
      omega
    · intro c h
      omega
  | succ fuel ih =>
    obtain ⟨depth, rfl⟩ : ∃ n, depth = n + 1 := ⟨depth - 1, by omega⟩
    have hdepth' : fuel + 12 ≤ depth := by omega
    obtain ⟨hd, hs, hb⟩ := ih hdepth'
    refine ⟨?_, ?_, ?_⟩
    · intro c t hc ht h
      refine has_recovering (declarationBody_moves (statement_moves fuel).2.1) hc ht ?_ (by omega)
      refine has_choice (List.cons_ne_nil _ _) (fun word rest hrest _ _ => ?_) (hs c (by omega))
      rw [hrest, List.length_cons] at h
      have hvar : 12 * rest.length + 12 ≤ depth := by omega
      exact has_varDeclaration hvar
    · intro c h
      change Has ts (statement ts (rules ts depth)) _ _
      rw [statement]
      obtain ⟨pos, _ | ⟨t, rest⟩⟩ := c
      · exact has_then_error (has_accept_nil (List.cons_ne_nil _ _)) _
      by_cases ht : t.kind ≠ .eof ∧ t.kind ∈ [TokenKind.printWord, .leftBrace]
      · obtain ⟨hend, hk⟩ := ht
        have hparse : statementFuel (fuel + 1) ⟨pos, t :: rest⟩ = _ :=
          Parse.accept_bind_of_mem hend hk pos rest
        rw [hparse]
        by_cases hprint : t.kind = .printWord
        · dsimp only
          rw [if_pos hprint]
          have hvalue : 12 * rest.length + 12 ≤ depth := by
            simp only [List.length_cons] at h
            omega
          exact has_taken hend (by simp [hprint]) fun _ => has_printStatement hvalue
        · have hbrace : t.kind = .leftBrace := by simpa [hprint] using hk
          dsimp only
          rw [if_neg hprint]
          refine has_passed (by simp [hprint]) (has_taken hend (by simp [hbrace]) fun _ => ?_)
          have hbody : 12 * rest.length + 3 ≤ fuel := by
            simp only [List.length_cons] at h
            omega
          exact has_bind (hb ⟨pos + 1, rest⟩ hbody) fun body _ => has_pure _ _
      · have hparse : statementFuel (fuel + 1) ⟨pos, t :: rest⟩ = _ :=
          Parse.accept_bind_of_not ht pos rest
        rw [hparse]
        refine has_passed (fun hp => ht ⟨hp.1, ?_⟩) (has_passed (fun hb => ht ⟨hb.1, ?_⟩) ?_)
        · exact List.mem_cons.mpr (.inl (List.mem_singleton.mp hp.2))
        · exact List.mem_cons_of_mem _ hb.2
        · exact has_expressionStatement (by omega)
    · intro c h
      change Has ts (block ts (rules ts depth)) _ _
      rw [block]
      obtain ⟨pos, _ | ⟨t, rest⟩⟩ := c
      · exact has_then_error has_check_nil _
      have hcheck : Has ts (check ts .rightBrace) ⟨pos, t :: rest⟩
          ⟨.ok (decide (t.kind = .rightBrace)), ⟨pos, t :: rest⟩, []⟩ := by
        by_cases hk : t.kind = .rightBrace
        · rw [decide_eq_true hk, ← hk]
          exact has_check_of_kind (by simp [hk])
        · rw [decide_eq_false hk]
          exact has_check_of_not fun h => hk h.2
      have hparse : blockFuel (fuel + 1) ⟨pos, t :: rest⟩ = _ := Parse.bind_of_silent (a := t) rfl
      rw [hparse]
      refine has_then hcheck fun _ => has_then has_atEnd fun _ => ?_
      by_cases ht : t.kind = .rightBrace ∨ t.kind = .eof
      · rw [if_pos ht, if_pos (by simpa using ht)]
        exact has_bind (has_consume _ _ _) fun _ _ => has_pure _ _
      · rw [if_neg ht, if_neg (by simpa using ht)]
        have hend : t.kind ≠ .eof := fun he => ht (.inr he)
        refine has_bind (hd ⟨pos, t :: rest⟩ t rfl hend (by omega)) fun first hfirst => ?_
        have hpos := declaration_taken rfl hend hfirst
        have hlen := ((statement_moves fuel).1 ⟨pos, t :: rest⟩).reaches.pos_add_length
        dsimp only at h hpos hlen
        exact has_bind (hb _ (by omega)) fun rest _ => has_pure _ _

theorem program_has {fuel depth : Nat} (hdepth : fuel + 12 ≤ depth) (c : Cursor)
    (h : 12 * c.ahead.length + 3 ≤ fuel) :
    Has ts (rules ts depth).program c (programFuel fuel c) := by
  induction fuel generalizing depth c with
  | zero => omega
  | succ fuel ih =>
    obtain ⟨depth, rfl⟩ : ∃ n, depth = n + 1 := ⟨depth - 1, by omega⟩
    have hdepth' : fuel + 12 ≤ depth := by omega
    change Has ts (program ts (rules ts depth)) _ _
    rw [program]
    obtain ⟨pos, _ | ⟨t, rest⟩⟩ := c
    · exact has_then_error has_atEnd_nil _
    have hparse : programFuel (fuel + 1) ⟨pos, t :: rest⟩ = _ :=
      Parse.bind_of_silent (Parse.atEnd_apply t pos rest)
    rw [hparse]
    refine has_then has_atEnd fun _ => ?_
    by_cases hend : t.kind = .eof
    · rw [if_pos (decide_eq_true hend), if_pos (decide_eq_true hend)]
      exact has_pure _ _
    · rw [if_neg (by simpa using hend), if_neg (by simpa using hend)]
      have hfirst : Has ts (rules ts depth).declaration ⟨pos, t :: rest⟩ _ :=
        (statement_has fuel hdepth').1 _ t rfl hend (by omega)
      refine has_bind hfirst fun first hresult => ?_
      have hpos := declaration_taken rfl hend hresult
      have hlen := ((statement_moves fuel).1 ⟨pos, t :: rest⟩).reaches.pos_add_length
      dsimp only at h hpos hlen
      exact has_bind (ih hdepth' _ (by omega)) fun rest _ => has_pure _ _

/-- The reader of a list has the outcome of parsing any list that is the same up to the first end
marker, at every depth that is enough for it. -/
theorem program_eq_parse {ts ts' : List Token} (h : AlikeToEnd ts ts') {depth : Nat}
    (hdepth : 12 * ts'.length + 24 ≤ depth) :
    ∃ glances, (rules ts depth).program.run.run {} = some ((parse ts').result,
      ⟨(parse ts').cursor.pos, (parse ts').complaints, glances⟩) ∧ ∀ n ∈ glances, 0 < n := by
  have hhas : Has ts (rules ts depth).program ⟨0, ts'⟩ (parse ts') :=
    program_has hdepth ⟨0, ts'⟩ (by dsimp only; omega)
  obtain ⟨glances, hrun, hglances, -⟩ := hhas h [] []
  exact ⟨glances, hrun, hglances⟩

end Indexed

/-- A program that was parsed leaves the cursor at an end marker. -/
theorem program_head (fuel : Nat) {c : Cursor} {ss : List Stmt}
    (h : (programFuel fuel c).result = .ok ss) :
    ∃ e rest, (programFuel fuel c).cursor.ahead = e :: rest ∧ e.kind = .eof := by
  induction fuel generalizing c ss with
  | zero => cases h
  | succ fuel ih =>
    obtain ⟨pos, _ | ⟨t, rest⟩⟩ := c
    · cases h
    have hparse : programFuel (fuel + 1) ⟨pos, t :: rest⟩ = _ :=
      Parse.bind_of_silent (Parse.atEnd_apply t pos rest)
    rw [hparse] at h ⊢
    by_cases hend : t.kind = .eof
    · rw [if_pos (decide_eq_true hend)]
      exact ⟨t, rest, rfl, hend⟩
    · rw [if_neg (by simpa using hend)] at h ⊢
      cases hfirst : (declarationFuel fuel ⟨pos, t :: rest⟩).result with
      | error stop =>
        rw [Parse.bind_of_error hfirst] at h
        cases h
      | ok first =>
        rw [Parse.bind_of_ok hfirst, Parse.bind_pure_apply] at h ⊢
        cases hrest : (programFuel fuel (declarationFuel fuel ⟨pos, t :: rest⟩).cursor).result with
        | error stop =>
          rw [hrest] at h
          cases h
        | ok ss => exact ih hrest

/-- The place of the first end marker, behind all tokens if there is none. -/
def firstEnd (ts : List Token) : Nat :=
  ts.findIdx fun t => t.kind = .eof

theorem firstEnd_append {used : List Token} (hused : ∀ t ∈ used, NotEnd t) {e : Token}
    (he : e.kind = .eof) (rest : List Token) : firstEnd (used ++ e :: rest) = used.length := by
  induction used with
  | nil => simp [firstEnd, List.findIdx_cons, he]
  | cons t used ih =>
    obtain ⟨ht, hused⟩ := List.forall_mem_cons.mp hused
    have hnot : decide (t.kind = .eof) = false := decide_eq_false ht
    have hcons : firstEnd (t :: (used ++ e :: rest)) = firstEnd (used ++ e :: rest) + 1 := by
      simp [firstEnd, List.findIdx_cons, hnot]
    rw [List.cons_append, hcons, ih hused, List.length_cons]

/-- What agrees with a list up to its first end marker is like it. -/
theorem alikeToEnd_of_take {ts ts' : List Token} (hend : HasEnd ts)
    (h : ts'.take (firstEnd ts + 1) = ts.take (firstEnd ts + 1)) : AlikeToEnd ts ts' := by
  induction ts generalizing ts' with
  | nil => exact absurd rfl hend.ne_nil
  | cons t rest ih =>
    obtain _ | ⟨t', rest'⟩ := ts'
    · simp at h
    rw [List.take_succ_cons, List.take_succ_cons] at h
    obtain ⟨rfl, hrest⟩ := List.cons.inj h
    by_cases ht : t'.kind = .eof
    · exact .stop ht rest rest'
    · have hnot : decide (t'.kind = .eof) = false := decide_eq_false ht
      have hfirst : firstEnd (t' :: rest) = firstEnd rest + 1 := by
        simp [firstEnd, List.findIdx_cons, hnot]
      obtain ⟨e, he, hkind⟩ := hend
      have hmem : e ∈ rest := (List.mem_cons.mp he).resolve_left fun h => ht (h ▸ hkind)
      rw [hfirst] at hrest
      exact .step t' (ih ⟨e, hmem, hkind⟩ hrest)

/-- Parsing stops at the first end marker. -/
theorem parse_pos {ts : List Token} {ss : List Stmt} (h : (parse ts).result = .ok ss) :
    HasEnd ts ∧ (parse ts).cursor.pos = firstEnd ts := by
  obtain ⟨e, rest, hahead, he⟩ := program_head _ h
  obtain ⟨used, hused, hts, hpos⟩ := (program_moves (12 * ts.length + 12) ⟨0, ts⟩).reaches
  have hsplit : ts = used ++ e :: rest := by
    rw [← hahead]
    exact hts
  refine ⟨⟨e, by simp [hsplit], he⟩, ?_⟩
  calc (parse ts).cursor.pos = 0 + used.length := hpos
    _ = firstEnd (used ++ e :: rest) := by rw [firstEnd_append hused he, Nat.zero_add]
    _ = firstEnd ts := by rw [← hsplit]

/-- Parsing ends on every list of tokens: the calls of its rules are nested no deeper than twelve
for each token and twenty-four more, the outcome is that of the parser, and no rule looks back from
the first position. A list with an end marker is parsed up to the first one, whatever stands behind it,
and one without is run through to where there is no token to look at. -/
theorem parse_ends (ts : List Token) :
    (∀ depth, 12 * ts.length + 24 ≤ depth → ∃ glances,
      (Indexed.rules ts depth).program.run.run {} = some ((parse ts).result,
        ⟨(parse ts).cursor.pos, (parse ts).complaints, glances⟩) ∧ 0 ∉ glances) ∧
    ((∃ t ∈ ts, t.kind = .eof) →
      (∃ ss, (parse ts).result = .ok ss) ∧ (parse ts).cursor.pos = firstEnd ts ∧
      ∀ ts', ts'.take (firstEnd ts + 1) = ts.take (firstEnd ts + 1) →
        (parse ts').result = (parse ts).result ∧
          (parse ts').complaints = (parse ts).complaints) ∧
    ((∀ t ∈ ts, t.kind ≠ .eof) → (parse ts).result = .error .pastEnd) := by
  refine ⟨?_, ?_, ?_⟩
  · intro depth hdepth
    obtain ⟨glances, hrun, hglances⟩ := Indexed.program_eq_parse (AlikeToEnd.refl ts) hdepth
    exact ⟨glances, hrun, fun h => Nat.lt_irrefl 0 (hglances 0 h)⟩
  · intro hend
    obtain ⟨ss, hss⟩ := program_ok (c := ⟨0, ts⟩) hend
    refine ⟨⟨ss, hss⟩, (parse_pos hss).2, ?_⟩
    intro ts' htake
    -- at a depth that is enough for both lists, the reader of one has both outcomes
    have hdepth : 12 * ts.length + 24 ≤ 12 * (ts.length + ts'.length) + 24 := by omega
    have hdepth' : 12 * ts'.length + 24 ≤ 12 * (ts.length + ts'.length) + 24 := by omega
    obtain ⟨glances, hrun, -⟩ := Indexed.program_eq_parse (AlikeToEnd.refl ts) hdepth
    obtain ⟨glances', hrun', -⟩ :=
      Indexed.program_eq_parse (alikeToEnd_of_take hend htake) hdepth'
    have hsame := Option.some.inj (hrun'.symm.trans hrun)
    obtain ⟨hresult, hstate⟩ := Prod.mk.inj hsame
    exact ⟨hresult, (Indexed.State.mk.inj hstate).2.1⟩
  · intro hnone
    cases hr : (parse ts).result with
    | ok ss =>
      obtain ⟨t, ht, hkind⟩ := (parse_pos hr).1
      exact absurd hkind (hnone t ht)
    | error stop =>
      cases stop with
      | pastEnd => rfl
      | raised b => exact absurd hr (program_not_raised _ ⟨0, ts⟩ b)

/-- The tokens of `nil }`, without an end marker. -/
private def unended : List Token :=
  [⟨.nilWord, "nil", .nil, 1⟩, ⟨.rightBrace, "\x7d", .nil, 1⟩]

/-- The same with an end marker, and the tokens once more behind it. -/
private def unendedTwice : List Token :=
  unended ++ ⟨.eof, "", .nil, 1⟩ :: unended

theorem parse_ends_unended :
    (∀ t ∈ unended, t.kind ≠ .eof) ∧ (parse unended).result = .error .pastEnd ∧
    (∃ t ∈ unendedTwice, t.kind = .eof) ∧ firstEnd unendedTwice = 2 ∧
    (parse unendedTwice).result = (parse (unendedTwice.take 3)).result := by
  have hnone : ∀ t ∈ unended, t.kind ≠ .eof := by decide
  have hend : ∃ t ∈ unendedTwice, t.kind = .eof := by decide
  have hfirst : firstEnd unendedTwice = 2 := by decide
  obtain ⟨-, -, hcut⟩ := (parse_ends unendedTwice).2.1 hend
  rw [hfirst] at hcut
  exact ⟨hnone, (parse_ends unended).2.2 hnone, hend, hfirst,
    (hcut (unendedTwice.take 3) rfl).1.symm⟩

end LoxLang.Grammar
