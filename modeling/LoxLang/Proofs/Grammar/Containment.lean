import Mathlib.Data.List.Induction
import LoxLang.Proofs.Grammar.Recovery

/-!
Syntax errors in blocks. If the tokens between the braces end with a semicolon, each declaration that
is given up ends in front of the closing brace, and the errors stay in the block. A last declaration
without its semicolon is given up at the closing brace or in front of it, and recovery, which does not
stop at braces, takes the brace with it.
-/
namespace LoxLang.Grammar

open Parse

variable {α : Type}

theorem recovering_complaints (p : Parse α) (c : Cursor) :
    (recovering p c).complaints = (p c).complaints := by
  cases hr : (p c).result with
  | ok a => rw [recovering_of_ok hr]
  | error stop =>
    cases stop with
    | pastEnd => rw [recovering_of_pastEnd hr]
    | raised blame => rw [recovering_of_raised hr, synchronize_complaints, List.append_nil]

/-! Blocks from the outside. -/

/-- From an opening brace on, a declaration is the block behind it. -/
theorem declaration_of_brace {left : Token} (hleft : left.kind = .leftBrace) {rest : List Token}
    (hend : HasEnd rest) (pos : Nat) :
    declaration ⟨pos, left :: rest⟩ =
      recovering (block >>= fun body => Pure.pure (.block body)) ⟨pos + 1, rest⟩ := by
  have hblock : block ⟨pos + 1, rest⟩ = blockFuel (12 * rest.length + 22) ⟨pos + 1, rest⟩ :=
    fueled_eq_of_le (fun n => (statement_extendedBy n).2.2) (by dsimp only; omega)
      (block_ne_pastEnd (c := ⟨pos + 1, rest⟩) hend)
  have hbody : (block >>= fun body => Pure.pure (Stmt.block body)) ⟨pos + 1, rest⟩ =
      (blockFuel (12 * rest.length + 22) >>= fun body => Pure.pure (Stmt.block body)) ⟨pos + 1, rest⟩ := by
    rw [bind_pure_apply, bind_pure_apply, hblock]
  have hnot : ¬ (left.kind ≠ .eof ∧ left.kind ∈ [TokenKind.varWord]) := by simp [hleft]
  refine recovering_congr ?_
  rw [hbody]
  refine (accept_bind_of_not hnot pos rest).trans ?_
  refine (accept_bind_of_mem (by simp [hleft]) (by simp [hleft]) pos rest).trans ?_
  dsimp only
  rw [if_neg (by simp [hleft])]
  rfl

theorem block_close {right : Token} (hright : right.kind = .rightBrace) (pos : Nat)
    (rest : List Token) : block ⟨pos, right :: rest⟩ = ⟨.ok [], ⟨pos + 1, rest⟩, []⟩ := by
  refine (bind_of_silent (a := right) rfl).trans ?_
  rw [if_pos (.inl hright), bind_of_silent (consume_of_kind hright (by decide) _ pos rest), pure_apply]

/-- A block that is not closed is blamed on the end marker. -/
theorem block_atEnd {e : Token} (he : e.kind = .eof) (pos : Nat) (rest : List Token) :
    (block ⟨pos, e :: rest⟩).complaints = [⟨pos, e, .expectBraceAfterBlock⟩] := by
  have hblock : block ⟨pos, e :: rest⟩ =
      (consume .rightBrace .expectBraceAfterBlock >>= fun _ => Pure.pure []) ⟨pos, e :: rest⟩ := by
    refine (bind_of_silent (a := e) rfl).trans ?_
    rw [if_pos (.inr he)]
  rw [hblock, bind_pure_apply]
  exact congrArg Outcome.complaints (accept_bind_of_not (by simp [he]) pos rest)

/-! Tokens inside of a block, without braces. -/

/-- The tokens are none or end with a semicolon. -/
def Closed (ts : List Token) : Prop :=
  ∀ t ∈ ts.getLast?, t.kind = .semicolon

theorem Closed.of_append {w v : List Token} (h : Closed (w ++ v)) : Closed v := by
  intro t ht
  refine h t ?_
  rw [List.getLast?_append, ht]
  rfl

theorem exists_first_semicolon {ts : List Token} (h : ∃ t ∈ ts, t.kind = .semicolon) :
    ∃ u x v, ts = u ++ x :: v ∧ x.kind = .semicolon ∧ ∀ t ∈ u, t.kind ≠ .semicolon := by
  obtain ⟨t, ht, hk⟩ := h
  have hsome : (ts.find? (·.kind = .semicolon)).isSome := by
    rw [List.find?_isSome]
    exact ⟨t, ht, by simp [hk]⟩
  obtain ⟨x, hx⟩ := Option.isSome_iff_exists.mp hsome
  obtain ⟨hkind, u, v, hsplit, hu⟩ := List.find?_eq_some_iff_append.mp hx
  exact ⟨u, x, v, hsplit, by simpa using hkind, fun t ht => by simpa using hu t ht⟩

/-- Tokens that are not closed end with some among which there is no semicolon. -/
theorem exists_open_of_not_closed {ts : List Token} (h : ¬ Closed ts) :
    ∃ w v, ts = w ++ v ∧ Closed w ∧ v ≠ [] ∧ ∀ t ∈ v, t.kind ≠ .semicolon := by
  induction ts using List.reverseRecOn with
  | nil => exact absurd (by simp [Closed]) h
  | append_singleton ts t ih =>
    have ht : t.kind ≠ .semicolon := by simpa [Closed] using h
    by_cases hts : Closed ts
    · exact ⟨ts, [t], rfl, hts, by simp, by simp [ht]⟩
    · obtain ⟨w, v, rfl, hw, -, hv⟩ := ih hts
      refine ⟨w, v ++ [t], by simp, hw, by simp, fun x hx => ?_⟩
      rcases List.mem_append.mp hx with hx | hx
      · exact hv x hx
      · rwa [List.mem_singleton.mp hx]

/-- No braces and no end marker. -/
def Braceless (ts : List Token) : Prop :=
  ∀ t ∈ ts, t.kind ∉ [TokenKind.leftBrace, .rightBrace, .eof]

theorem Braceless.of_append {w v : List Token} (h : Braceless (w ++ v)) : Braceless v :=
  fun t ht => h t (List.mem_append_right w ht)

/-- In front of the end marker a closing brace is a barrier as well. -/
theorem barrier_brace {right e : Token} (hright : right.kind = .rightBrace) (he : e.kind = .eof)
    (rest : List Token) : Barrier right (e :: rest) := by
  have hstop : ∀ last pos, skipTo last pos (e :: rest) = ⟨.ok (), ⟨pos, e :: rest⟩, []⟩ := by
    intro last pos
    rw [skipTo, if_pos (.inl he)]
  refine ⟨not_inSimple_of_kind (by simp [hright]), fun pos => ?_, fun last pos hlast => ?_⟩
  · rw [synchronize_cons (by simp [hright]), hstop]
  · have hgo : ¬ (right.kind = .eof ∨ last.kind = .semicolon ∨ right.kind.startsStatement = true) := by
      simp [hright, hlast, TokenKind.startsStatement]
    rw [skipTo, if_neg hgo, hstop]

/-- One declaration of a block without braces, up to a barrier. -/
theorem declaration_barrier {u r : List Token} {x : Token} (hbarrier : Barrier x r)
    (hbrace : ∀ t ∈ (u ++ [x]).head?, t.kind ≠ .leftBrace)
    (hplain : ∀ t ∈ u, t.kind ≠ .eof ∧ t.kind ≠ .semicolon) (hr : HasEnd r) (pos : Nat) :
    ∃ y cs w v, u ++ [x] = w ++ v ∧ w ≠ [] ∧
      (∀ t ∈ v.head?, t ∈ u.tail ∧ t.kind.startsStatement = true) ∧
      declaration ⟨pos, u ++ x :: r⟩ = ⟨.ok y, ⟨pos + w.length, v ++ r⟩, cs⟩ ∧
      ∀ b ∈ cs, pos ≤ b.pos ∧ b.pos ≤ pos + u.length := by
  obtain ⟨y, cs, w, v, hsplit, hne, hhead, hrun, hblamed⟩ := recovering_barrier hbarrier hplain hr pos
  refine ⟨y, cs, w, v, hsplit, hne, hhead, ?_, fun b hb => ⟨(hblamed b hb).1.1, (hblamed b hb).2⟩⟩
  rw [← hrun]
  cases u with
  | nil => exact declaration_eq (hbrace x (by simp)) pos r
  | cons t u => exact declaration_eq (hbrace t (by simp)) pos (u ++ x :: r)

/-- Tokens that end with a semicolon are passed over to their end, and none but they are blamed. -/
theorem passes_closed {r ts : List Token} (hr : HasEnd r) (hts : Braceless ts) (hclosed : Closed ts)
    (pos : Nat) :
    ∃ ss cs, Passes [.rightBrace, .eof] ⟨pos, ts ++ r⟩ ss cs ⟨pos + ts.length, r⟩ ∧
      ∀ b ∈ cs, pos ≤ b.pos ∧ b.pos < pos + ts.length := by
  rcases hlast : ts.getLast? with _ | last
  · rw [List.getLast?_eq_none_iff.mp hlast]
    exact ⟨[], [], .refl _, by simp⟩
  obtain ⟨u, x, rest, hfirst, hx, hu⟩ :=
    exists_first_semicolon ⟨last, List.mem_of_getLast? hlast, hclosed last hlast⟩
  have hend : HasEnd (rest ++ r) := hr.append rest
  have hkinds : Braceless (u ++ [x]) := fun t ht => hts t (by
    rw [hfirst, List.append_cons]
    exact List.mem_append_left rest ht)
  obtain ⟨y, cs, w, v, hsplit, hne, -, hrun, hblamed⟩ :=
    declaration_barrier (barrier_semicolon hx hend.ne_nil)
      (fun t ht hk => hkinds t (List.mem_of_mem_head? ht) (by simp [hk]))
      (fun t ht => ⟨fun hk => hkinds t (by simp [ht]) (by simp [hk]), hu t ht⟩) hend pos
  -- what is left of the tokens is shorter and ends like them
  have hwhole : ts = w ++ (v ++ rest) := by
    rw [hfirst, List.append_cons, hsplit, List.append_assoc]
  have hlength : ts.length = w.length + (v ++ rest).length := by rw [hwhole, List.length_append]
  have hlonger : u.length < w.length + (v ++ rest).length := by
    rw [← hlength, hfirst]
    simp
  have hpositive : 0 < w.length := List.length_pos_iff.mpr hne
  have hshorter : (v ++ rest).length < ts.length := by omega
  obtain ⟨ss, ds, hpasses, hlater⟩ := passes_closed hr (Braceless.of_append (hwhole ▸ hts))
    (Closed.of_append (hwhole ▸ hclosed)) (pos + w.length)
  obtain ⟨t, w', rfl⟩ := List.exists_cons_of_ne_nil hne
  have hstart : t.kind ∉ [TokenKind.rightBrace, .eof] := by
    have hkind := hts t (by simp [hwhole])
    simp_all
  have hahead : u ++ x :: (rest ++ r) = t :: (w' ++ (v ++ (rest ++ r))) := by
    rw [List.append_cons, hsplit]
    simp
  rw [hahead] at hrun
  rw [List.append_assoc] at hpasses
  refine ⟨y.toList ++ ss, cs ++ ds, ?_, fun b hb => ?_⟩
  · rw [hlength, hwhole, ← Nat.add_assoc]
    have hstep := Passes.step hstart hrun hpasses
    simpa using hstep
  · rcases List.mem_append.mp hb with hb | hb
    · have hbounds := hblamed b hb
      omega
    · have hbounds := hlater b hb
      omega
termination_by ts.length
decreasing_by exact hshorter

/-- With no semicolon at their end, the tokens in front of the last brace take the brace with them. -/
theorem block_unclosed {right e : Token} (hright : right.kind = .rightBrace) (he : e.kind = .eof)
    {ts : List Token} (hts : Braceless ts) (hne : ts ≠ []) (hopen : ∀ t ∈ ts, t.kind ≠ .semicolon)
    (pos : Nat) :
    ⟨pos + ts.length + 1, e, .expectBraceAfterBlock⟩ ∈
      (block ⟨pos, ts ++ [right, e]⟩).complaints := by
  have hone : HasEnd [e] := ⟨e, by simp, he⟩
  have hbrace : ∀ t ∈ (ts ++ [right]).head?, t.kind ≠ .leftBrace := by
    intro t ht hk
    rcases List.mem_append.mp (List.mem_of_mem_head? ht) with hmem | hmem
    · exact hts t hmem (by simp [hk])
    · simp [List.mem_singleton.mp hmem, hright] at hk
  obtain ⟨y, cs, w, v, hsplit, hw, hhead, hrun, -⟩ :=
    declaration_barrier (barrier_brace hright he []) hbrace
      (fun t ht => ⟨fun hk => hts t ht (by simp [hk]), hopen t ht⟩) hone pos
  have hstep : block ⟨pos, ts ++ [right, e]⟩ =
      (block ⟨pos + w.length, v ++ [e]⟩).after y.toList cs := by
    obtain ⟨t, rest, rfl⟩ := List.exists_cons_of_ne_nil hne
    have hkind := hts t (by simp)
    exact block_step (by simp_all) ((hone.cons right).append (t :: rest)) hrun
  rw [hstep]
  refine List.mem_append_right cs ?_
  have hlength : ts.length + 1 = w.length + v.length := by
    rw [← List.length_append, ← hsplit, List.length_append, List.length_singleton]
  rcases List.eq_nil_or_concat v with rfl | ⟨ts', z, rfl⟩
  · rw [List.nil_append, block_atEnd he, List.mem_singleton, Nat.add_assoc, hlength]
    rfl
  · -- recovery stopped in front of a word, and the tokens from there on are like those before
    rw [List.concat_eq_append, ← List.append_assoc] at hsplit
    obtain ⟨hts', hz⟩ := List.append_inj' hsplit rfl
    obtain rfl : right = z := by simpa using hz
    have hne' : ts' ≠ [] := by
      rintro rfl
      have hword := (hhead right (by simp)).2
      simp [hright, TokenKind.startsStatement] at hword
    have hpositive : 0 < w.length := List.length_pos_iff.mpr hw
    have hshorter : ts'.length < ts.length := by
      rw [hts', List.length_append]
      omega
    have hlater := block_unclosed hright he (Braceless.of_append (hts' ▸ hts)) hne'
      (fun t ht => hopen t (hts' ▸ List.mem_append_right w ht)) (pos + w.length)
    have hsame : pos + ts.length = pos + w.length + ts'.length := by
      rw [hts', List.length_append, Nat.add_assoc]
    rw [hsame, List.concat_eq_append, List.append_assoc]
    exact hlater
termination_by ts.length

/-- A block is left open by tokens that do not end with a semicolon, though they stand in front of
its closing brace. -/
theorem block_open {right e : Token} (hright : right.kind = .rightBrace) (he : e.kind = .eof)
    {ts : List Token} (hts : Braceless ts) (hopen : ¬ Closed ts) (pos : Nat) :
    ⟨pos + ts.length + 1, e, .expectBraceAfterBlock⟩ ∈ (block ⟨pos, ts ++ [right, e]⟩).complaints := by
  obtain ⟨w, v, rfl, hw, hne, hv⟩ := exists_open_of_not_closed hopen
  have hend : HasEnd (v ++ [right, e]) := ⟨e, by simp, he⟩
  have hfirst : Braceless w := fun t ht => hts t (List.mem_append_left v ht)
  obtain ⟨ss, cs, hpasses, -⟩ := passes_closed hend hfirst hw pos
  rw [List.append_assoc, hpasses.block_eq (hend.append w), List.length_append, ← Nat.add_assoc]
  exact List.mem_append_right cs (block_unclosed hright he hts.of_append hne hv (pos + w.length))

/-! Blocks in a program. -/

theorem blames_block : block.Blames 0 :=
  fun start c h => (statement_blames _).2.2 start c h

theorem blames_program : program.Blames 0 :=
  fun start c h => program_blames _ start c h

section

variable {left right : Token} (hleft : left.kind = .leftBrace) (hright : right.kind = .rightBrace)
  {inside rest : List Token} (hrest : HasEnd rest)

include hleft

theorem program_of_brace {rest : List Token} (hrest : HasEnd rest) (pos : Nat) :
    (program ⟨pos, left :: rest⟩).complaints = (declaration ⟨pos, left :: rest⟩).complaints ++
      (program (declaration ⟨pos, left :: rest⟩).cursor).complaints := by
  obtain ⟨x, hx⟩ := declaration_ok (c := ⟨pos, left :: rest⟩) (hrest.cons left)
  have hfirst : declaration ⟨pos, left :: rest⟩ = ⟨.ok x, (declaration ⟨pos, left :: rest⟩).cursor,
      (declaration ⟨pos, left :: rest⟩).complaints⟩ := by
    rw [← hx]
  rw [program_step (by simp [hleft]) (hrest.cons left) hfirst]
  rfl

theorem mem_program_of_brace {rest : List Token} (hrest : HasEnd rest) {pos : Nat} {b : Complaint}
    (hb : b ∈ (block ⟨pos + 1, rest⟩).complaints) : b ∈ (program ⟨pos, left :: rest⟩).complaints := by
  rw [program_of_brace hleft hrest, declaration_of_brace hleft hrest, recovering_complaints,
    bind_pure_apply]
  exact List.mem_append_left _ hb

/-- An opening brace is never blamed, nor is what stands in front of it. -/
theorem program_of_brace_blames {rest : List Token} (hrest : HasEnd rest) (pos : Nat) :
    ∀ b ∈ (program ⟨pos, left :: rest⟩).complaints, pos < b.pos := by
  have hdeclaration : (declaration ⟨pos, left :: rest⟩).Blames 0 ⟨pos + 1, rest⟩ ⟨pos + 1, rest⟩ := by
    rw [declaration_of_brace hleft hrest]
    exact (blames_block.bind fun _ => blames_pure _).recovering _ _ (.refl _)
  have hprogram := blames_program ⟨pos + 1, rest⟩ _ hdeclaration.reaches
  intro b hb
  rw [program_of_brace hleft hrest] at hb
  rcases List.mem_append.mp hb with hb | hb
  · exact (hdeclaration.holds b hb).1
  · exact (hprogram.holds b hb).1

include hright hrest

/-- A block whose tokens end with a semicolon ends with its closing brace and is kept, and the program
goes on behind it. -/
theorem program_of_closed (hinside : Braceless inside) (hclosed : Closed inside) (pos : Nat) :
    ∃ body cs, program ⟨pos, left :: (inside ++ right :: rest)⟩ =
        (program ⟨pos + inside.length + 2, rest⟩).after [.block body] cs ∧
      ∀ b ∈ cs, b.pos ≤ pos + inside.length := by
  have hclose : HasEnd (right :: rest) := hrest.cons right
  have hend : HasEnd (inside ++ right :: rest) := hclose.append inside
  obtain ⟨body, cs, hpasses, hblamed⟩ := passes_closed hclose hinside hclosed (pos + 1)
  have hblock : block ⟨pos + 1, inside ++ right :: rest⟩ =
      ⟨.ok body, ⟨pos + inside.length + 2, rest⟩, cs⟩ := by
    rw [hpasses.block_eq hend, block_close hright]
    simp only [Outcome.after, Except.map, List.append_nil, Outcome.mk.injEq, Cursor.mk.injEq, true_and,
      and_true]
    omega
  have hbind : (block >>= fun body => Pure.pure (Stmt.block body)) ⟨pos + 1, inside ++ right :: rest⟩ =
      ⟨.ok (.block body), ⟨pos + inside.length + 2, rest⟩, cs⟩ := by
    rw [bind_pure_apply, hblock]
    rfl
  have hdeclaration : declaration ⟨pos, left :: (inside ++ right :: rest)⟩ =
      ⟨.ok (some (.block body)), ⟨pos + inside.length + 2, rest⟩, cs⟩ := by
    rw [declaration_of_brace hleft hend, recovering_of_ok (by rw [hbind]), hbind]
  refine ⟨body, cs, program_step (by simp [hleft]) (hend.cons left) hdeclaration, fun b hb => ?_⟩
  have hbounds := hblamed b hb
  omega

end

/-- A token behind the opening brace and in front of the closing one is one of those between them. -/
theorem getElem?_of_between {before inside r : List Token} {left t : Token} {i : Nat}
    (h : (before ++ left :: (inside ++ r))[i]? = some t) (hlower : before.length < i)
    (hupper : i ≤ before.length + inside.length) :
    inside[i - (before.length + 1)]? = some t := by
  have hlength : (before ++ [left]).length = before.length + 1 := by simp
  rw [List.append_cons, List.getElem?_append_right (by omega), hlength,
    List.getElem?_append_left (by omega)] at h
  exact h

/-- Syntax errors in a block whose tokens are none or end with a semicolon stay in the block: the
program is that of the tokens in front, the block, and that of the tokens behind, and the blamed
tokens stand between the braces. Without the last semicolon, only what stands in front of the block
is sure to be kept, and the end marker is blamed too if nothing follows the block. -/
theorem block_contains_errors {before inside after : List Token} {left right e : Token}
    (hleft : left.kind = .leftBrace) (hright : right.kind = .rightBrace) (he : e.kind = .eof)
    (hbefore : ∀ t ∈ before, t.kind ≠ .eof) (hquiet : (parse (before ++ [e])).complaints = [])
    (hquiet' : (parse (after ++ [e])).complaints = []) (hinside : Braceless inside) :
    ∃ ss ss', (parse (before ++ [e])).result = .ok ss ∧ (parse (after ++ [e])).result = .ok ss' ∧
      let o := parse (before ++ left :: (inside ++ right :: (after ++ [e])))
      (∃ more, o.result = .ok (ss ++ more)) ∧
      (∀ b ∈ o.complaints, before.length < b.pos) ∧
      (Closed inside → (∃ body, o.result = .ok (ss ++ .block body :: ss')) ∧
        ∀ b ∈ o.complaints, inside[b.pos - (before.length + 1)]? = some b.token) ∧
      (¬ Closed inside → after = [] →
        ⟨before.length + inside.length + 2, e, .expectBraceAfterBlock⟩ ∈ o.complaints) := by
  have hend : HasEnd (after ++ [e]) := ⟨e, by simp, he⟩
  have hrest : HasEnd (inside ++ right :: (after ++ [e])) := (hend.cons right).append inside
  obtain ⟨ss, hss, hgo⟩ := program_append_of_silent he hbefore hquiet
  obtain ⟨ss', hss'⟩ := program_ok (c := ⟨0, after ++ [e]⟩) hend
  refine ⟨ss, ss', hss, hss', ?_⟩
  intro o
  have ho : o = (program ⟨before.length, left :: (inside ++ right :: (after ++ [e]))⟩).after ss [] :=
    hgo _ (hrest.cons left)
  have hfront : ∀ b ∈ o.complaints, before.length < b.pos := by
    rw [ho]
    exact program_of_brace_blames hleft hrest before.length
  refine ⟨?_, hfront, fun hclosed => ?_, fun hopen hnone => ?_⟩
  · obtain ⟨more, hmore⟩ := program_ok
      (c := ⟨before.length, left :: (inside ++ right :: (after ++ [e]))⟩) (hrest.cons left)
    exact ⟨more, by rw [ho, Outcome.after, hmore]; rfl⟩
  · obtain ⟨body, cs, hblock, hblamed⟩ :=
      program_of_closed hleft hright hend hinside hclosed before.length
    obtain ⟨hresult, hcomplaints⟩ := program_later hss' (before.length + inside.length + 2)
    rw [hquiet', List.map_nil] at hcomplaints
    rw [hblock, Outcome.after_after] at ho
    refine ⟨⟨body, ?_⟩, fun b hb => ?_⟩
    · rw [ho, Outcome.after, hresult]
      simp [Except.map]
    · have hlower := hfront b hb
      have htoken := parse_blames hb
      rw [ho, Outcome.after, hcomplaints, List.append_nil] at hb
      exact getElem?_of_between htoken hlower (hblamed b hb)
  · subst hnone
    rw [ho]
    refine mem_program_of_brace hleft hrest ?_
    have hblamed := block_open hright he hinside hopen (before.length + 1)
    rwa [Nat.add_right_comm before.length] at hblamed

private def openBrace : Token :=
  ⟨.leftBrace, "\x7b", .nil, 1⟩

private def closeBrace : Token :=
  ⟨.rightBrace, "\x7d", .nil, 1⟩

private def lastMark : Token :=
  ⟨.eof, "", .nil, 1⟩

/-- The tokens of `nil;`. -/
private def goodStatement : List Token :=
  [⟨.nilWord, "nil", .nil, 1⟩, ⟨.semicolon, ";", .nil, 1⟩]

/-- The tokens of `print;`. -/
private def emptyPrint : List Token :=
  [⟨.printWord, "print", .nil, 1⟩, ⟨.semicolon, ";", .nil, 1⟩]

theorem block_contains_errors_emptyPrint :
    Braceless emptyPrint ∧ Closed emptyPrint ∧ (parse (goodStatement ++ [lastMark])).complaints = [] ∧
    ∃ ss body, (parse (goodStatement ++ [lastMark])).result = .ok ss ∧
      (parse (goodStatement ++ openBrace :: (emptyPrint ++ closeBrace ::
        (goodStatement ++ [lastMark])))).result = .ok (ss ++ .block body :: ss) := by
  have hinside : Braceless emptyPrint := List.forall_iff_forall_mem.mp (by decide)
  have hclosed : Closed emptyPrint := by simp [Closed, emptyPrint]
  have hquiet : (parse (goodStatement ++ [lastMark])).complaints = [] := rfl
  have hopen : openBrace.kind = .leftBrace := rfl
  have hclose : closeBrace.kind = .rightBrace := rfl
  obtain ⟨ss, ss', hss, hss', -, -, hkept, -⟩ :=
    block_contains_errors hopen hclose rfl (by decide) hquiet hquiet hinside
  obtain ⟨⟨body, hbody⟩, -⟩ := hkept hclosed
  cases hss.symm.trans hss'
  exact ⟨hinside, hclosed, hquiet, ss, body, hss, hbody⟩

/-- Without its semicolon, a statement in a block takes the closing brace with it: the statement
behind the block is lost, and so is the block, for which the end marker is blamed. -/
theorem unfinished_block_spills :
    Braceless [⟨.nilWord, "nil", .nil, 1⟩] ∧ (parse (goodStatement ++ [lastMark])).complaints = [] ∧
    (parse (goodStatement ++ [lastMark])).result = .ok [.expression (.literal .nil)] ∧
    (parse ([] ++ openBrace :: ([⟨.nilWord, "nil", .nil, 1⟩] ++ closeBrace ::
      (goodStatement ++ [lastMark])))).result = .ok [] ∧
    (parse ([] ++ openBrace :: ([⟨.nilWord, "nil", .nil, 1⟩] ++ closeBrace ::
      (goodStatement ++ [lastMark])))).complaints.map (·.pos) = [2, 5] := by
  refine ⟨by simp [Braceless], rfl, rfl, rfl, rfl⟩

end LoxLang.Grammar
