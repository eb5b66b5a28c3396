import LoxLang.Proofs.Grammar.Simple

/-!
Recovery from syntax errors. A declaration that is given up takes what follows with it, up to behind
the next semicolon or in front of the next word that starts a statement; the token at which the error
was found goes in any case. So the tokens up to a semicolon are parsed, or dropped, as a unit, while
a word that starts a statement is a boundary only if the error was found in front of it.
-/
namespace LoxLang.Grammar

open Parse

/-- The tokens at which recovery does not stop. -/
structure Skipped (t : Token) : Prop where
  not_eof : t.kind ≠ .eof
  not_semicolon : t.kind ≠ .semicolon
  not_word : t.kind.startsStatement = false

theorem skipped_of_inExpression (t : Token) (h : InExpression t) : Skipped t := by
  simp only [InExpression] at h
  refine ⟨?_, ?_, ?_⟩ <;> revert h <;> cases t.kind <;> decide

section

variable {u r : List Token} {last x : Token}

theorem skipTo_append (hlast : last.kind ≠ .semicolon) (hu : ∀ t ∈ u, Skipped t) (pos : Nat) :
    ∃ last', last'.kind ≠ .semicolon ∧
      skipTo last pos (u ++ r) = skipTo last' (pos + u.length) r := by
  induction u generalizing last pos with
  | nil => exact ⟨last, hlast, rfl⟩
  | cons t u ih =>
    have ht := hu t (by simp)
    obtain ⟨last', hlast', h⟩ := ih ht.not_semicolon (fun t h => hu t (by simp [h])) (pos + 1)
    refine ⟨last', hlast', ?_⟩
    have hgo : ¬ (t.kind = .eof ∨ last.kind = .semicolon ∨ t.kind.startsStatement = true) := by
      simp [ht.not_eof, hlast, ht.not_word]
    rw [List.cons_append, skipTo, if_neg hgo, h, List.length_cons, Nat.add_right_comm, Nat.add_assoc]

theorem skipTo_of_semicolon (hlast : last.kind = .semicolon) (pos : Nat) (x : Token) (r : List Token) :
    skipTo last pos (x :: r) = ⟨.ok (), ⟨pos, x :: r⟩, []⟩ := by
  rw [skipTo, if_pos (.inr (.inl hlast))]

theorem skipTo_of_word (hx : x.kind.startsStatement = true) (last : Token) (pos : Nat)
    (r : List Token) : skipTo last pos (x :: r) = ⟨.ok (), ⟨pos, x :: r⟩, []⟩ := by
  rw [skipTo, if_pos (.inr (.inr hx))]

theorem synchronize_cons {t : Token} (ht : t.kind ≠ .eof) (pos : Nat) (r : List Token) :
    synchronize ⟨pos, t :: r⟩ = skipTo t (pos + 1) r := by
  simp only [synchronize, if_neg ht]

/-- Recovery goes to the next word that starts a statement, unless it starts there. -/
theorem synchronize_word {t : Token} (hend : t.kind ≠ .eof) (hsemicolon : t.kind ≠ .semicolon)
    (hu : ∀ t ∈ u, Skipped t) (hx : x.kind.startsStatement = true) (pos : Nat) :
    synchronize ⟨pos, t :: u ++ x :: r⟩ = ⟨.ok (), ⟨pos + (t :: u).length, x :: r⟩, []⟩ := by
  obtain ⟨last, -, hskip⟩ := skipTo_append (r := x :: r) hsemicolon hu (pos + 1)
  rw [List.cons_append, synchronize_cons hend, hskip, skipTo_of_word hx, List.length_cons]
  congr 2
  omega

end

/-- A token that no simple declaration holds and that recovery passes over, but not what follows. -/
structure Barrier (x : Token) (r : List Token) : Prop where
  not_inSimple : ¬ InSimple x
  synchronize_eq : ∀ pos, synchronize ⟨pos, x :: r⟩ = ⟨.ok (), ⟨pos + 1, r⟩, []⟩
  skipTo_eq : ∀ last pos, last.kind ≠ .semicolon →
    skipTo last pos (x :: r) = ⟨.ok (), ⟨pos + 1, r⟩, []⟩

theorem barrier_semicolon {x : Token} {r : List Token} (hx : x.kind = .semicolon) (hr : r ≠ []) :
    Barrier x r := by
  obtain ⟨y, r, rfl⟩ := List.exists_cons_of_ne_nil hr
  refine ⟨not_inSimple_of_kind (by simp [hx]), fun pos => ?_, fun last pos hlast => ?_⟩
  · rw [synchronize_cons (by simp [hx]), skipTo_of_semicolon hx]
  · have hgo : ¬ (x.kind = .eof ∨ last.kind = .semicolon ∨ x.kind.startsStatement = true) := by
      simp [hx, hlast, TokenKind.startsStatement]
    rw [skipTo, if_neg hgo, skipTo_of_semicolon hx]

section

variable {u r : List Token} {x : Token} (hbarrier : Barrier x r)
  (hplain : ∀ t ∈ u, t.kind ≠ .eof ∧ t.kind ≠ .semicolon)

include hbarrier hplain

/-- Recovery stops behind the barrier or in front of a word that starts a statement. -/
theorem skipTo_barrier {last : Token} (hlast : last.kind ≠ .semicolon) (pos : Nat) :
    ∃ w v, u ++ [x] = w ++ v ∧ (∀ t ∈ v.head?, t ∈ u ∧ t.kind.startsStatement = true) ∧
      skipTo last pos (u ++ x :: r) = ⟨.ok (), ⟨pos + w.length, v ++ r⟩, []⟩ := by
  induction u generalizing last pos with
  | nil => exact ⟨[x], [], rfl, by simp, hbarrier.skipTo_eq last pos hlast⟩
  | cons t u ih =>
    obtain ⟨hend, hsemicolon⟩ := hplain t (by simp)
    by_cases hword : t.kind.startsStatement = true
    · refine ⟨[], t :: u ++ [x], rfl, by simp [hword], ?_⟩
      rw [List.cons_append, skipTo_of_word hword]
      simp
    · obtain ⟨w, v, hsplit, hhead, hskip⟩ := ih (fun t ht => hplain t (by simp [ht])) hsemicolon (pos + 1)
      refine ⟨t :: w, v, by rw [List.cons_append, hsplit]; rfl, fun t ht => ?_, ?_⟩
      · exact ⟨List.mem_cons_of_mem _ (hhead t ht).1, (hhead t ht).2⟩
      · have hgo : ¬ (t.kind = .eof ∨ last.kind = .semicolon ∨ t.kind.startsStatement = true) := by
          simp [hend, hlast, hword]
        rw [List.cons_append, skipTo, if_neg hgo, hskip, List.length_cons, Nat.add_right_comm,
          Nat.add_assoc]

/-- The first token is skipped even if it is such a word. -/
theorem synchronize_barrier (pos : Nat) :
    ∃ w v, u ++ [x] = w ++ v ∧ w ≠ [] ∧
      (∀ t ∈ v.head?, t ∈ u.tail ∧ t.kind.startsStatement = true) ∧
      synchronize ⟨pos, u ++ x :: r⟩ = ⟨.ok (), ⟨pos + w.length, v ++ r⟩, []⟩ := by
  cases u with
  | nil => exact ⟨[x], [], rfl, by simp, by simp, hbarrier.synchronize_eq pos⟩
  | cons t u =>
    obtain ⟨hend, hsemicolon⟩ := hplain t (by simp)
    obtain ⟨w, v, hsplit, hhead, hskip⟩ :=
      skipTo_barrier (u := u) hbarrier (fun t ht => hplain t (by simp [ht])) hsemicolon (pos + 1)
    refine ⟨t :: w, v, by rw [List.cons_append, hsplit]; rfl, by simp, hhead, ?_⟩
    rw [List.cons_append, synchronize_cons hend, hskip, List.length_cons, Nat.add_right_comm,
      Nat.add_assoc]

omit hbarrier hplain in
theorem eq_nil_of_no_word {v : List Token}
    (hhead : ∀ t ∈ v.head?, t ∈ u ∧ t.kind.startsStatement = true)
    (hwords : ∀ t ∈ u, t.kind.startsStatement = false) : v = [] := by
  cases v with
  | nil => rfl
  | cons t v =>
    obtain ⟨hmem, hword⟩ := hhead t (by simp)
    rw [hwords t hmem] at hword
    cases hword

/-- Without a word in front of which recovery could stop, it stops behind the barrier. -/
theorem synchronize_barrier_of_no_word (hwords : ∀ t ∈ u.tail, t.kind.startsStatement = false)
    (pos : Nat) :
    synchronize ⟨pos, u ++ x :: r⟩ = ⟨.ok (), ⟨pos + (u.length + 1), r⟩, []⟩ := by
  obtain ⟨w, v, hsplit, -, hhead, hsync⟩ := synchronize_barrier hbarrier hplain pos
  obtain rfl := eq_nil_of_no_word hhead hwords
  rw [List.append_nil] at hsplit
  rw [hsync, ← hsplit, List.length_append]
  rfl

end

theorem simpleDeclaration_ne_pastEnd {c : Cursor} (hc : HasEnd c.ahead) :
    (simpleDeclaration c).result ≠ .error .pastEnd :=
  (sated_simpleDeclaration c).result_ne (fun c => moves_simpleDeclaration c) hc

theorem recovering_some {α : Type} {p : Parse α} {c c' : Cursor} {a : α} {cs : List Complaint}
    (h : recovering p c = ⟨.ok (some a), c', cs⟩) : p c = ⟨.ok a, c', cs⟩ := by
  cases hr : (p c).result with
  | ok b =>
    rw [recovering_of_ok hr] at h
    cases h
    rw [← hr]
  | error stop =>
    cases stop with
    | pastEnd =>
      rw [recovering_of_pastEnd hr] at h
      cases h
    | raised blame =>
      rw [recovering_of_raised hr] at h
      cases hs : (synchronize (p c).cursor).result <;> rw [hs] at h <;> cases h

theorem recovering_dropped {α : Type} {p : Parse α} {c c' : Cursor} {x : Option α} {blame : Complaint}
    {cs : List Complaint} (hr : (p c).result = .error (.raised blame))
    (h : recovering p c = ⟨.ok x, c', cs⟩) : x = none ∧ cs = (p c).complaints := by
  rw [recovering_of_raised hr, synchronize_complaints, List.append_nil] at h
  cases hs : (synchronize (p c).cursor).result <;> rw [hs] at h <;> cases h
  exact ⟨rfl, rfl⟩

theorem mem_tail_of_suffix {u w v : List Token} (h : u = w ++ v) {t : Token} (ht : t ∈ v.tail) :
    t ∈ u.tail := by
  rw [h]
  cases w with
  | nil => exact ht
  | cons y w => exact List.mem_append_right w (List.mem_of_mem_tail ht)

/-- In front of a barrier a simple declaration takes a token at least, ends behind the barrier or in
front of a word that starts a statement, and blames no token behind the barrier. -/
theorem recovering_barrier {u r : List Token} {x : Token} (hbarrier : Barrier x r)
    (hplain : ∀ t ∈ u, t.kind ≠ .eof ∧ t.kind ≠ .semicolon) (hr : HasEnd r) (pos : Nat) :
    ∃ y cs w v, u ++ [x] = w ++ v ∧ w ≠ [] ∧
      (∀ t ∈ v.head?, t ∈ u.tail ∧ t.kind.startsStatement = true) ∧
      recovering simpleDeclaration ⟨pos, u ++ x :: r⟩ = ⟨.ok y, ⟨pos + w.length, v ++ r⟩, cs⟩ ∧
      ∀ b ∈ cs, Cursor.Holds ⟨pos, u ++ x :: r⟩ b ∧ b.pos ≤ pos + u.length := by
  obtain ⟨t, rest, hahead⟩ : ∃ t rest, t :: rest = u ++ x :: r := by cases u <;> exact ⟨_, _, rfl⟩
  have hblames := blames_simpleDeclaration ⟨pos, t :: rest⟩ ⟨pos, t :: rest⟩ (.refl _)
  have hend : HasEnd (t :: rest) := hahead ▸ (hr.cons x).append u
  rw [← hahead]
  cases hresult : (simpleDeclaration ⟨pos, t :: rest⟩).result with
  | ok a =>
    have hcursor := simpleDeclaration_passed hahead (fun t ht => (hplain t ht).2) hbarrier.not_inSimple hresult
    refine ⟨some a, (simpleDeclaration ⟨pos, t :: rest⟩).complaints, u ++ [x], [], by simp, by simp,
      by simp, ?_, fun b hb => ?_⟩
    · rw [recovering_of_ok hresult, hcursor, List.length_append]
      rfl
    · have hbehind := hblames.behind a hresult b hb
      rw [hcursor] at hbehind
      exact ⟨hblames.holds b hb, Nat.le_of_succ_le_succ hbehind⟩
  | error stop =>
    cases stop with
    | pastEnd => exact absurd hresult (simpleDeclaration_ne_pastEnd (c := ⟨pos, t :: rest⟩) hend)
    | raised blame =>
      obtain ⟨w₁, v₁, hbody, hcursor⟩ := simpleDeclaration_stopped hahead hbarrier.not_inSimple hresult
      obtain ⟨w₂, v₂, hsplit, hne, hhead, hsync⟩ := synchronize_barrier hbarrier
        (fun t ht => hplain t (hbody ▸ List.mem_append_right w₁ ht)) (pos + w₁.length)
      refine ⟨none, (simpleDeclaration ⟨pos, t :: rest⟩).complaints, w₁ ++ w₂, v₂, ?_, by simp [hne],
        fun t ht => ?_, ?_, fun b hb => ?_⟩
      · rw [hbody, List.append_assoc, hsplit, List.append_assoc]
      · exact ⟨mem_tail_of_suffix hbody (hhead t ht).1, (hhead t ht).2⟩
      · rw [recovering_of_raised hresult, hcursor, hsync, List.append_nil, List.length_append,
          ← Nat.add_assoc]
        rfl
      · have hle := hblames.le b hb
        rw [hcursor] at hle
        refine ⟨hblames.holds b hb, Nat.le_trans hle ?_⟩
        rw [hbody, List.length_append]
        dsimp only
        omega

/-- The tokens of a statement that ends with a semicolon, well formed or not: they do not open with a
brace, and behind the first of them there is no word that starts a statement. -/
structure Segment where
  body : List Token
  semicolon : Token
  kind_semicolon : semicolon.kind = .semicolon
  plain : ∀ t ∈ body, t.kind ≠ .eof ∧ t.kind ≠ .semicolon
  no_word : ∀ t ∈ body.tail, t.kind.startsStatement = false
  no_brace : ∀ t ∈ body.head?, t.kind ≠ .leftBrace

namespace Segment

def tokens (s : Segment) : List Token :=
  s.body ++ [s.semicolon]

variable (s : Segment)

theorem length_tokens : s.tokens.length = s.body.length + 1 := by
  simp [tokens]

theorem tokens_append (r : List Token) : s.tokens ++ r = s.body ++ s.semicolon :: r := by
  simp [tokens]

/-- The first token, at which parsers of blocks and of programs call for a declaration. -/
theorem exists_first (r : List Token) : ∃ t rest, s.tokens ++ r = t :: rest ∧ t.kind ≠ .eof ∧
    t.kind ≠ .leftBrace := by
  rw [s.tokens_append]
  cases hb : s.body with
  | nil =>
    refine ⟨s.semicolon, r, rfl, ?_, ?_⟩ <;> simp [s.kind_semicolon]
  | cons t body =>
    have hmem : t ∈ s.body := by simp [hb]
    exact ⟨t, body ++ s.semicolon :: r, rfl, (s.plain t hmem).1, s.no_brace t (by simp [hb])⟩

variable {r : List Token} (hr : HasEnd r)

include hr

/-- A declaration takes the segment and blames none but its tokens. -/
theorem recovering_simpleDeclaration (pos : Nat) :
    ∃ x cs, recovering simpleDeclaration ⟨pos, s.tokens ++ r⟩ = ⟨.ok x, ⟨pos + s.tokens.length, r⟩, cs⟩ ∧
      ∀ b ∈ cs, Cursor.Holds ⟨pos, s.tokens ++ r⟩ b ∧ b.pos < pos + s.tokens.length := by
  have hbarrier := barrier_semicolon s.kind_semicolon hr.ne_nil
  obtain ⟨x, cs, w, v, hsplit, -, hhead, hunit, hblamed⟩ := recovering_barrier hbarrier s.plain hr pos
  obtain rfl := eq_nil_of_no_word hhead s.no_word
  rw [List.append_nil] at hsplit
  rw [← hsplit] at hunit
  refine ⟨x, cs, by rw [s.tokens_append, hunit]; rfl, fun b hb => ?_⟩
  obtain ⟨hholds, hle⟩ := hblamed b hb
  rw [s.length_tokens, s.tokens_append]
  exact ⟨hholds, by omega⟩

/-- Behind other tokens and in front of others, a segment has the outcome that it has at the start. -/
theorem recovering_simpleDeclaration_later {r' : List Token} (hr' : HasEnd r') {pos shift : Nat}
    {x x' : Option Stmt} {c c' : Cursor} {cs cs' : List Complaint}
    (h : recovering simpleDeclaration ⟨pos, s.tokens ++ r⟩ = ⟨.ok x, c, cs⟩)
    (h' : recovering simpleDeclaration ⟨pos + shift, s.tokens ++ r'⟩ = ⟨.ok x', c', cs'⟩) :
    x' = x ∧ cs' = cs.map (Relocation.later shift).complaint := by
  have hrel : (Relocation.later shift).UpTo (s.semicolon :: r) (s.semicolon :: r')
      ⟨pos, s.tokens ++ r⟩ ⟨pos + shift, s.tokens ++ r'⟩ :=
    ⟨rfl, s.body, s.tokens_append r, by simp [s.tokens_append, Relocation.later]⟩
  obtain ⟨hresult, -, -, hcomplaints⟩ :=
    simpleDeclaration_transports s.kind_semicolon hr hr' _ _ hrel
  cases hr₁ : (simpleDeclaration ⟨pos, s.tokens ++ r⟩).result with
  | ok a =>
    have hr₂ : (simpleDeclaration ⟨pos + shift, s.tokens ++ r'⟩).result = .ok a := by
      rw [hresult, hr₁]
      exact congrArg Except.ok (Relocation.stmt_later shift a)
    rw [recovering_of_ok hr₁] at h
    rw [recovering_of_ok hr₂] at h'
    cases h
    cases h'
    exact ⟨rfl, hcomplaints⟩
  | error stop =>
    have hr₂ : (simpleDeclaration ⟨pos + shift, s.tokens ++ r'⟩).result =
        .error ((Relocation.later shift).stop stop) := by
      rw [hresult, hr₁]
      rfl
    cases stop with
    | pastEnd =>
      rw [recovering_of_pastEnd hr₁] at h
      cases h
    | raised blame =>
      obtain ⟨rfl, rfl⟩ := recovering_dropped hr₁ h
      obtain ⟨rfl, rfl⟩ := recovering_dropped hr₂ h'
      exact ⟨rfl, hcomplaints⟩

theorem program_step {pos : Nat} {x : Option Stmt} {c : Cursor} {cs : List Complaint}
    (h : recovering simpleDeclaration ⟨pos, s.tokens ++ r⟩ = ⟨.ok x, c, cs⟩) :
    program ⟨pos, s.tokens ++ r⟩ = (program c).after x.toList cs := by
  obtain ⟨t, rest, hahead, hend, hbrace⟩ := s.exists_first r
  have hmany : HasEnd (t :: rest) := hahead ▸ hr.append s.tokens
  rw [hahead] at h ⊢
  exact Grammar.program_step hend hmany (by rw [declaration_eq hbrace, h])

omit hr in
/-- In front of more tokens a program starts with what the segment gives alone. -/
theorem program_eq {e : Token} (he : e.kind = .eof) (after : List Token) (pos : Nat) :
    ∃ own, (parse (s.tokens ++ [e])).result = .ok own ∧
      program ⟨pos, s.tokens ++ (after ++ [e])⟩ =
        (program ⟨pos + s.tokens.length, after ++ [e]⟩).after own
          ((parse (s.tokens ++ [e])).complaints.map (Relocation.later pos).complaint) := by
  have hone : HasEnd [e] := ⟨e, by simp, he⟩
  have hmany : HasEnd (after ++ [e]) := hone.append after
  obtain ⟨x, cs, halone, -⟩ := s.recovering_simpleDeclaration hone 0
  obtain ⟨x', cs', hthere, -⟩ := s.recovering_simpleDeclaration hmany pos
  rw [← Nat.zero_add pos] at hthere
  obtain ⟨rfl, rfl⟩ := s.recovering_simpleDeclaration_later hone hmany halone hthere
  rw [Nat.zero_add] at halone hthere
  have hparse : parse (s.tokens ++ [e]) = ⟨.ok x'.toList, ⟨s.tokens.length, [e]⟩, cs⟩ := by
    rw [parse, s.program_step hone halone, program_atEnd he]
    simp [Outcome.after, Except.map]
  rw [hparse]
  exact ⟨x'.toList, rfl, s.program_step hmany hthere⟩

end Segment

/-- A segment is parsed or dropped as a unit. Wherever a declaration starts with one, inside of blocks
as well, it ends with the segment and blames none but its tokens. So behind a beginning without
complaint a segment and the rest give the statements and the diagnostics that each gives alone. -/
theorem segment_is_unit (s : Segment) {e : Token} (he : e.kind = .eof) :
    (∀ before after : List Token, ∃ x cs,
      (∀ fuel, 2 ≤ fuel → declarationFuel fuel ⟨before.length, s.tokens ++ (after ++ [e])⟩ =
        declaration ⟨before.length, s.tokens ++ (after ++ [e])⟩) ∧
      declaration ⟨before.length, s.tokens ++ (after ++ [e])⟩ =
        ⟨.ok x, ⟨before.length + s.tokens.length, after ++ [e]⟩, cs⟩ ∧
      ∀ b ∈ cs, before.length ≤ b.pos ∧ b.pos < before.length + s.tokens.length ∧
        (before ++ (s.tokens ++ (after ++ [e])))[b.pos]? = some b.token) ∧
    ∀ before after : List Token, (∀ t ∈ before, t.kind ≠ .eof) →
      (parse (before ++ [e])).complaints = [] → ∃ ss own ss',
        (parse (before ++ [e])).result = .ok ss ∧ (parse (s.tokens ++ [e])).result = .ok own ∧
        (parse (after ++ [e])).result = .ok ss' ∧
        (parse (before ++ (s.tokens ++ (after ++ [e])))).result = .ok (ss ++ (own ++ ss')) ∧
        (parse (before ++ (s.tokens ++ (after ++ [e])))).complaints.map Complaint.diagnostic =
          (parse (s.tokens ++ [e])).complaints.map Complaint.diagnostic ++
            (parse (after ++ [e])).complaints.map Complaint.diagnostic := by
  have hend : ∀ ts : List Token, HasEnd (ts ++ [e]) := fun ts => ⟨e, by simp, he⟩
  refine ⟨fun before after => ?_, fun before after hbefore hsilent => ?_⟩
  · obtain ⟨t, rest, hahead, -, hbrace⟩ := s.exists_first (after ++ [e])
    obtain ⟨x, cs, hunit, hblamed⟩ := s.recovering_simpleDeclaration (hend after) before.length
    refine ⟨x, cs, fun fuel hfuel => ?_, ?_, fun b hb => ?_⟩
    · rw [hahead, declaration_eq hbrace, declarationFuel_eq hfuel hbrace]
    · rw [← hunit, hahead, declaration_eq hbrace]
    · obtain ⟨⟨hle, hget⟩, hlt⟩ := hblamed b hb
      exact ⟨hle, hlt, by rw [List.getElem?_append_right hle, ← hget]⟩
  · obtain ⟨ss, hss, hgo⟩ := program_append_of_silent he hbefore hsilent
    obtain ⟨own, hown, hthere⟩ := s.program_eq he after before.length
    obtain ⟨ss', hss'⟩ := program_ok (c := ⟨0, after ++ [e]⟩) (hend after)
    obtain ⟨hresult, hcomplaints⟩ := program_later hss' (before.length + s.tokens.length)
    have hwhole : parse (before ++ (s.tokens ++ (after ++ [e]))) =
        (program ⟨before.length + s.tokens.length, after ++ [e]⟩).after (ss ++ own)
          ((parse (s.tokens ++ [e])).complaints.map (Relocation.later before.length).complaint) := by
      change program ⟨0, _⟩ = _
      rw [hgo _ ((hend after).append s.tokens), hthere, Outcome.after_after, List.nil_append]
    refine ⟨ss, own, ss', hss, hown, hss', ?_, ?_⟩
    · rw [hwhole, Outcome.after, hresult, ← List.append_assoc]
      rfl
    · rw [hwhole, Outcome.after, hcomplaints]
      simp only [List.map_append, List.map_map]
      rfl

private def endMark : Token :=
  ⟨.eof, "", .nil, 1⟩

/-- The tokens of `nil;`. -/
private def nilStatement : List Token :=
  [⟨.nilWord, "nil", .nil, 1⟩, ⟨.semicolon, ";", .nil, 1⟩]

/-- The tokens of `print` and a closing brace with a semicolon. -/
private def strayBrace : Segment where
  body := [⟨.printWord, "print", .nil, 1⟩, ⟨.rightBrace, "\x7d", .nil, 1⟩]
  semicolon := ⟨.semicolon, ";", .nil, 1⟩
  kind_semicolon := rfl
  plain := by decide
  no_word := by decide
  no_brace := by decide

theorem segment_is_unit_strayBrace :
    (∀ t ∈ nilStatement, t.kind ≠ .eof) ∧ (parse (nilStatement ++ [endMark])).complaints = [] ∧
    (∃ x cs, declaration ⟨2, strayBrace.tokens ++ (nilStatement ++ [endMark])⟩ =
      ⟨.ok x, ⟨5, nilStatement ++ [endMark]⟩, cs⟩) ∧
    ∃ ss own ss', (parse (strayBrace.tokens ++ [endMark])).result = .ok own ∧
      (parse (nilStatement ++ (strayBrace.tokens ++ (nilStatement ++ [endMark])))).result =
        .ok (ss ++ (own ++ ss')) := by
  have hbefore : ∀ t ∈ nilStatement, t.kind ≠ .eof := by decide
  have hsilent : (parse (nilStatement ++ [endMark])).complaints = [] := rfl
  obtain ⟨hdeclaration, hprogram⟩ := segment_is_unit strayBrace (e := endMark) rfl
  obtain ⟨x, cs, -, hunit, -⟩ := hdeclaration nilStatement nilStatement
  obtain ⟨ss, own, ss', -, hown, -, hresult, -⟩ := hprogram nilStatement nilStatement hbefore hsilent
  exact ⟨hbefore, hsilent, ⟨x, cs, hunit⟩, ss, own, ss', hown, hresult⟩

/-! A statement without its semicolon, in front of one that starts with a word. -/

section

variable {ts r : List Token} {word : Token}

theorem kinds_of_word (hword : word.kind ∈ [TokenKind.varWord, .printWord]) :
    word.kind ≠ .eof ∧ word.kind ≠ .semicolon ∧ word.kind.startsStatement = true := by
  rcases List.mem_pair.mp hword with hk | hk <;> simp [hk, TokenKind.startsStatement]

/-- What is parsed from the word `var` or `print` on ends with the first semicolon. -/
theorem exists_semicolon_of_word (hword : word.kind ∈ [TokenKind.varWord, .printWord]) {pos : Nat}
    {s : Stmt} {c : Cursor} (h : declaration ⟨pos, word :: r⟩ = ⟨.ok (some s), c, []⟩) :
    ∃ w semicolon, r = w ++ semicolon :: c.ahead ∧ (∀ t ∈ w, InExpression t) ∧
      semicolon.kind = .semicolon := by
  have hbrace : word.kind ≠ .leftBrace := by
    intro hk
    simp [hk] at hword
  rw [declaration_eq hbrace] at h
  have hparsed := recovering_some h
  have hcloses := simpleDeclaration_closes_of_word hword pos r
  rw [hparsed] at hcloses
  obtain ⟨_, semicolon, hkind, -, w, hw, hr, -⟩ := hcloses.passed s rfl
  exact ⟨w, semicolon, hr, hw, hkind⟩

/-- Without a semicolon in front of the word, a declaration is given up at the word or in front of
it. -/
theorem simpleDeclaration_unfinished (hts : ts ≠ [])
    (hplain : ∀ t ∈ ts, t.kind ≠ .eof ∧ t.kind ≠ .semicolon)
    (hword : word.kind ∈ [TokenKind.varWord, .printWord]) (hr : HasEnd r) (pos : Nat) :
    ∃ blame w v, ts = w ++ v ∧
      (simpleDeclaration ⟨pos, ts ++ word :: r⟩).result = .error (.raised blame) ∧
      (simpleDeclaration ⟨pos, ts ++ word :: r⟩).cursor = ⟨pos + w.length, v ++ word :: r⟩ := by
  obtain ⟨t, ts, rfl⟩ := List.exists_cons_of_ne_nil hts
  have hstart : ∃ w v, t :: ts = w ++ v ∧ (simpleDeclaration ⟨pos, t :: ts ++ word :: r⟩).Closes
      InExpression ⟨pos + w.length, v ++ word :: r⟩ := by
    by_cases ht : t.kind ∈ [TokenKind.varWord, .printWord]
    · exact ⟨[t], ts, rfl, simpleDeclaration_closes_of_word ht pos (ts ++ word :: r)⟩
    · exact ⟨[], t :: ts, rfl, simpleDeclaration_closes_of_not ht pos (ts ++ word :: r)⟩
  obtain ⟨w, v, hsplit, hstopped, hpassed⟩ := hstart
  have hnot : ¬ InExpression word := by
    intro h
    simp only [InExpression] at h
    rcases List.mem_pair.mp hword with hk | hk <;> simp [hk, expressionKinds] at h
  have hend : HasEnd (t :: ts ++ word :: r) := (hr.cons word).append (t :: ts)
  cases hresult : (simpleDeclaration ⟨pos, t :: ts ++ word :: r⟩).result with
  | ok s =>
    -- the semicolon would have to be the word or stand in front of it
    obtain ⟨_, semicolon, hkind, -, hreaches⟩ := hpassed s hresult
    obtain ⟨w', v', rfl, hc⟩ := hreaches.split hnot
    have hhead := congrArg (·.ahead.head?) hc
    cases v' with
    | nil =>
      obtain rfl : semicolon = word := by simpa using hhead
      exact absurd hkind (kinds_of_word hword).2.1
    | cons y v' =>
      obtain rfl : semicolon = y := by simpa using hhead
      exact absurd hkind (hplain semicolon (by simp [hsplit])).2
  | error stop =>
    cases stop with
    | pastEnd => exact absurd hresult (simpleDeclaration_ne_pastEnd (c := ⟨pos, _⟩) hend)
    | raised blame =>
      obtain ⟨w', v', rfl, hc⟩ := (hstopped _ hresult).split hnot
      refine ⟨blame, w ++ w', v', by rw [hsplit, List.append_assoc], rfl, ?_⟩
      rw [hc, List.length_append, Nat.add_assoc]

/-- A program that starts with such tokens goes on where recovery takes it from the token that was
blamed. -/
theorem parse_unfinished (hts : ts ≠ [])
    (hbody : ∀ t ∈ ts, t.kind ≠ .eof ∧ t.kind ≠ .semicolon ∧ t.kind ≠ .leftBrace)
    (hword : word.kind ∈ [TokenKind.varWord, .printWord]) (hr : HasEnd r) :
    ∃ u v, ts = u ++ v ∧ ∀ c ss, synchronize ⟨u.length, v ++ word :: r⟩ = ⟨.ok (), c, []⟩ →
      (program c).result = .ok ss → (program c).complaints = [] →
      (parse (ts ++ word :: r)).result = .ok ss ∧
      (∃ b ∈ (parse (ts ++ word :: r)).complaints, b.pos = u.length) ∧
      ∀ b ∈ (parse (ts ++ word :: r)).complaints, b.pos ≤ u.length := by
  obtain ⟨blame, u, v, hsplit, hraised, hcursor⟩ :=
    simpleDeclaration_unfinished hts (fun t ht => ⟨(hbody t ht).1, (hbody t ht).2.1⟩) hword hr 0
  rw [Nat.zero_add] at hcursor
  refine ⟨u, v, hsplit, fun c ss hsync hresult hquiet => ?_⟩
  have hend : HasEnd (ts ++ word :: r) := (hr.cons word).append ts
  have hblames := blames_simpleDeclaration ⟨0, ts ++ word :: r⟩ _ (.refl _)
  obtain ⟨hpos, -, earlier, hlast⟩ :=
    (moves_simpleDeclaration ⟨0, ts ++ word :: r⟩).raised blame hraised
  obtain ⟨t, ts, rfl⟩ := List.exists_cons_of_ne_nil hts
  have hdropped : declaration ⟨0, t :: ts ++ word :: r⟩ =
      ⟨.ok none, c, (simpleDeclaration ⟨0, t :: ts ++ word :: r⟩).complaints⟩ := by
    rw [List.cons_append, declaration_eq (hbody t (by simp)).2.2, ← List.cons_append,
      recovering_of_raised hraised, hcursor, hsync, List.append_nil]
    rfl
  have hparse := program_step (hbody t (by simp)).1 hend hdropped
  change parse (t :: ts ++ word :: r) = _ at hparse
  rw [hparse, Outcome.after, hresult, hquiet, List.append_nil]
  refine ⟨rfl, ⟨blame, by rw [hlast]; simp, by rw [hpos, hcursor]⟩, fun b hb => ?_⟩
  have hle := hblames.le b hb
  rw [hcursor] at hle
  exact hle

/-- Recovery that starts at the word of a good declaration goes on to behind the declaration. -/
theorem synchronize_at_word (hword : word.kind ∈ [TokenKind.varWord, .printWord]) {pos : Nat} {s : Stmt}
    {c : Cursor} (h : declaration ⟨pos, word :: r⟩ = ⟨.ok (some s), c, []⟩) (hc : c.ahead ≠ [])
    (start : Nat) : ∃ n, synchronize ⟨start, word :: r⟩ = ⟨.ok (), ⟨n, c.ahead⟩, []⟩ := by
  obtain ⟨w, semicolon, hw, hinside, hkind⟩ := exists_semicolon_of_word hword h
  have hskipped : ∀ t ∈ w, Skipped t := fun t ht => skipped_of_inExpression t (hinside t ht)
  obtain ⟨hwordEnd, hwordSemicolon, -⟩ := kinds_of_word hword
  have hplain : ∀ t ∈ word :: w, t.kind ≠ .eof ∧ t.kind ≠ .semicolon :=
    List.forall_mem_cons.mpr ⟨⟨hwordEnd, hwordSemicolon⟩,
      fun t ht => ⟨(hskipped t ht).not_eof, (hskipped t ht).not_semicolon⟩⟩
  have hsync := synchronize_barrier_of_no_word (barrier_semicolon hkind hc) hplain
    (fun t ht => (hskipped t ht).not_word) start
  rw [List.cons_append, ← hw] at hsync
  exact ⟨_, hsync⟩

/-- Recovery that starts in front of the word stops at it. -/
theorem synchronize_to_word {u v : List Token} (hv : v ≠ [])
    (hplain : ∀ t ∈ u ++ v, t.kind ≠ .eof ∧ t.kind ≠ .semicolon)
    (hwords : ∀ t ∈ (u ++ v).tail, t.kind.startsStatement = false)
    (hword : word.kind ∈ [TokenKind.varWord, .printWord]) :
    synchronize ⟨u.length, v ++ word :: r⟩ = ⟨.ok (), ⟨u.length + v.length, word :: r⟩, []⟩ := by
  obtain ⟨t, v, rfl⟩ := List.exists_cons_of_ne_nil hv
  obtain ⟨hend, hsemicolon⟩ := hplain t (by simp)
  have hskipped : ∀ y ∈ v, Skipped y := by
    intro y hy
    obtain ⟨hend, hsemicolon⟩ := hplain y (by simp [hy])
    exact ⟨hend, hsemicolon, hwords y (mem_tail_of_suffix rfl hy)⟩
  exact synchronize_word hend hsemicolon hskipped (kinds_of_word hword).2.2 u.length

end

/-- A statement that lacks its semicolon is dropped in front of one that starts with `var` or
`print`. That one is kept if the error is found in front of its first token. If the first token is
the one that is blamed, recovery skips it, and the good statement is lost as well. -/
theorem parse_unfinished_append {ts r : List Token} {word e : Token} (he : e.kind = .eof)
    (hts : ts ≠ [])
    (hplain : ∀ t ∈ ts, t.kind ∉ [TokenKind.semicolon, .leftBrace, .rightBrace, .eof])
    (hwords : ∀ t ∈ ts.tail, t.kind.startsStatement = false)
    (hword : word.kind ∈ [TokenKind.varWord, .printWord]) (hr : ∀ t ∈ r, t.kind ≠ .eof)
    (hsilent : (parse (word :: (r ++ [e]))).complaints = []) :
    ∃ first rest, (parse (word :: (r ++ [e]))).result = .ok (first :: rest) ∧
      ((∃ b ∈ (parse (ts ++ word :: (r ++ [e]))).complaints, b.pos < ts.length) ∧
        (∀ b ∈ (parse (ts ++ word :: (r ++ [e]))).complaints, b.pos < ts.length) ∧
        (parse (ts ++ word :: (r ++ [e]))).result = .ok (first :: rest) ∨
      (∃ b ∈ (parse (ts ++ word :: (r ++ [e]))).complaints, b.pos = ts.length ∧ b.token = word) ∧
        (∀ b ∈ (parse (ts ++ word :: (r ++ [e]))).complaints, b.pos ≤ ts.length) ∧
        (parse (ts ++ word :: (r ++ [e]))).result = .ok rest) := by
  have hone : HasEnd [e] := ⟨e, by simp, he⟩
  have hbody : ∀ t ∈ ts, t.kind ≠ .eof ∧ t.kind ≠ .semicolon ∧ t.kind ≠ .leftBrace := by
    intro t ht
    have hkind := hplain t ht
    simp only [List.mem_cons, List.not_mem_nil, or_false, not_or] at hkind
    exact ⟨hkind.2.2.2, hkind.1, hkind.2.1⟩
  obtain ⟨d, hd⟩ := exists_derivation_of_silent he
    (List.forall_mem_cons.mpr ⟨(kinds_of_word hword).1, hr⟩) hsilent
  obtain ⟨u, v, rfl, hgo⟩ := parse_unfinished hts hbody hword (hone.append r)
  cases d with
  | nil => cases hd
  | cons first rest =>
    have hgood : (parse (word :: (r ++ [e]))).result = .ok (first.tree :: rest.tree) := by
      rw [← List.cons_append, ← hd, Derivation.parse_yield _ he]
      rfl
    refine ⟨first.tree, rest.tree, hgood, ?_⟩
    by_cases hv : v = []
    · -- recovery starts at the word and goes on to behind the first declaration
      subst hv
      have hfirst := first.declaration_yield (hone.append rest.yield) 0
      have hahead : first.yield ++ (rest.yield ++ [e]) = word :: (r ++ [e]) := by
        rw [← List.append_assoc, ← List.cons_append, ← hd]
        rfl
      rw [hahead] at hfirst
      obtain ⟨n, hsync⟩ := synchronize_at_word hword hfirst (hone.append rest.yield).ne_nil u.length
      obtain ⟨hresult, hquiet⟩ := rest.program_yield he n
      obtain ⟨hok, ⟨b, hb, hpos⟩, hle⟩ := hgo _ _ hsync hresult hquiet
      have htoken := parse_blames hb
      rw [List.append_nil] at htoken hok hb hle ⊢
      rw [hpos, List.getElem?_append_right (Nat.le_refl _), Nat.sub_self] at htoken
      exact .inr ⟨⟨b, hb, hpos, (Option.some.inj htoken).symm⟩, hle, hok⟩
    · -- recovery starts in front of the word and stops there
      have hsync := synchronize_to_word (r := r ++ [e]) hv
        (fun t ht => ⟨(hbody t ht).1, (hbody t ht).2.1⟩) hwords hword
      obtain ⟨hresult, hquiet⟩ :=
        (Derivation.cons first rest).program_yield he (u.length + v.length)
      rw [hd, List.cons_append] at hresult hquiet
      obtain ⟨hok, ⟨b, hb, hpos⟩, hle⟩ := hgo _ _ hsync hresult hquiet
      have hlt : u.length < (u ++ v).length := by
        rw [List.length_append]
        exact Nat.lt_add_of_pos_right (List.length_pos_iff.mpr hv)
      exact .inl ⟨⟨b, hb, hpos ▸ hlt⟩, fun b hb => Nat.lt_of_le_of_lt (hle b hb) hlt, hok⟩

/-- In `nil print nil;` the word `print` is blamed for the missing semicolon, and nothing is left. -/
theorem parse_unfinished_append_nil :
    (parse (⟨.printWord, "print", .nil, 1⟩ :: (nilStatement ++ [endMark]))).complaints = [] ∧
    (parse ([⟨.nilWord, "nil", .nil, 1⟩] ++
      ⟨.printWord, "print", .nil, 1⟩ :: (nilStatement ++ [endMark]))).result = .ok [] := by
  have hsilent : (parse (⟨.printWord, "print", .nil, 1⟩ :: (nilStatement ++ [endMark]))).complaints = [] := rfl
  have hgood : (parse (⟨.printWord, "print", .nil, 1⟩ :: (nilStatement ++ [endMark]))).result =
      .ok [.print (.literal .nil)] := rfl
  have hblamed : ∀ b ∈ (parse ([⟨.nilWord, "nil", .nil, 1⟩] ++
      ⟨.printWord, "print", .nil, 1⟩ :: (nilStatement ++ [endMark]))).complaints, b.pos = 1 := by
    intro b hb
    cases List.mem_singleton.mp hb
    rfl
  obtain ⟨first, rest, hok, hkept | hlost⟩ := parse_unfinished_append (e := endMark) rfl
    (List.cons_ne_nil ⟨.nilWord, "nil", .nil, 1⟩ []) (by decide) (by decide) (by decide) (by decide) hsilent
  · obtain ⟨⟨b, hb, hlt⟩, -⟩ := hkept
    rw [hblamed b hb] at hlt
    simp at hlt
  · cases hgood.symm.trans hok
    exact ⟨hsilent, hlost.2.2⟩

end LoxLang.Grammar
