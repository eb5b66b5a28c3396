import LoxLang.Proofs.Grammar.Acceptance
import LoxLang.Proofs.Grammar.Relocation

/-!
Programs and blocks are declarations one after the other: what was passed over in front adds its
statements and complaints, and parsing goes on from the place that was reached as if from the start.
-/
namespace LoxLang.Grammar

open Parse

variable {α β : Type}

theorem HasEnd.ne_nil {r : List Token} (h : HasEnd r) : r ≠ [] := by
  obtain ⟨t, ht, -⟩ := h
  exact List.ne_nil_of_mem ht

/-- The end marker stays ahead of every parser. -/
theorem HasEnd.of_reaches {c c' : Cursor} (hc : HasEnd c.ahead) (h : c.Reaches NotEnd c') :
    HasEnd c'.ahead := by
  obtain ⟨t, ht, hk⟩ := hc
  exact ⟨t, h.mem_of_not ht fun hn => hn hk, hk⟩

theorem Parse.bind_pure_apply (p : Parse α) (f : α → β) (c : Cursor) :
    (p >>= fun a => Pure.pure (f a)) c = ⟨(p c).result.map f, (p c).cursor, (p c).complaints⟩ := by
  cases hr : (p c).result with
  | error s =>
    rw [bind_of_error hr]
    rfl
  | ok a =>
    rw [bind_of_ok hr, pure_apply, List.append_nil]
    rfl

section

variable {c : Cursor} (hc : HasEnd c.ahead)

include hc

theorem declaration_ne_pastEnd : (declaration c).result ≠ .error .pastEnd := by
  have hsated : declaration.Sated c :=
    sated_fueled (p := declarationFuel) ((statement_sated _).1 c (by omega))
  exact hsated.result_ne (fun c => (statement_moves _).1 c) hc

/-- Where there is an end marker, a declaration is parsed or dropped. -/
theorem declaration_ok : ∃ x, (declaration c).result = .ok x := by
  cases hr : (declaration c).result with
  | ok x => exact ⟨x, rfl⟩
  | error s =>
    cases s with
    | raised b => exact absurd hr (recovering_not_raised _ c b)
    | pastEnd => exact absurd hr (declaration_ne_pastEnd hc)

theorem block_ne_pastEnd : (block c).result ≠ .error .pastEnd := by
  have hsated : block.Sated c := sated_fueled (p := blockFuel) ((statement_sated _).2.2 c (by omega))
  exact hsated.result_ne (fun c => (statement_moves _).2.2 c) hc

theorem program_ne_pastEnd : (program c).result ≠ .error .pastEnd := by
  obtain ⟨ss, hss⟩ := program_ok hc
  rw [hss]
  nofun

end

theorem declaration_reaches (c : Cursor) : c.Reaches NotEnd (declaration c).cursor :=
  ((statement_moves _).1 c).reaches

/-- The outcome of parsing behind statements and complaints. -/
def Outcome.after (ss : List Stmt) (cs : List Complaint) (o : Outcome (List Stmt)) :
    Outcome (List Stmt) :=
  ⟨o.result.map (ss ++ ·), o.cursor, cs ++ o.complaints⟩

theorem Outcome.after_nil (o : Outcome (List Stmt)) : o.after [] [] = o := by
  obtain ⟨_ | ss, c, cs⟩ := o <;> rfl

theorem Outcome.after_after (ss ss' : List Stmt) (cs cs' : List Complaint)
    (o : Outcome (List Stmt)) : (o.after ss' cs').after ss cs = o.after (ss ++ ss') (cs ++ cs') := by
  obtain ⟨_ | tt, c, ds⟩ := o <;> simp [after, Except.map]

section

variable {pos : Nat} {t : Token} {rest : List Token} {x : Option Stmt} {c' : Cursor}
  {cs : List Complaint}

private theorem length_le_of_declaration (hd : declaration ⟨pos, t :: rest⟩ = ⟨.ok x, c', cs⟩) :
    c'.ahead.length ≤ (t :: rest).length := by
  have hreach := declaration_reaches ⟨pos, t :: rest⟩
  rw [hd] at hreach
  have hsum := hreach.pos_add_length
  have hle := hreach.pos_le
  dsimp only at hsum hle
  omega

private theorem hasEnd_of_declaration (hend : HasEnd (t :: rest))
    (hd : declaration ⟨pos, t :: rest⟩ = ⟨.ok x, c', cs⟩) : HasEnd c'.ahead := by
  have hreach := declaration_reaches ⟨pos, t :: rest⟩
  rw [hd] at hreach
  exact HasEnd.of_reaches (c := ⟨pos, t :: rest⟩) hend hreach

/-- A program goes on behind its first declaration. -/
theorem program_step (ht : t.kind ≠ .eof) (hend : HasEnd (t :: rest))
    (hd : declaration ⟨pos, t :: rest⟩ = ⟨.ok x, c', cs⟩) :
    program ⟨pos, t :: rest⟩ = (program c').after x.toList cs := by
  have hlen := length_le_of_declaration hd
  have hwhole : program ⟨pos, t :: rest⟩ =
      programFuel (12 * (t :: rest).length + 12 + 1) ⟨pos, t :: rest⟩ :=
    fueled_eq_of_le program_extendedBy (by dsimp only; omega)
      (program_ne_pastEnd (c := ⟨pos, t :: rest⟩) hend)
  have hfirst : declarationFuel (12 * (t :: rest).length + 12) ⟨pos, t :: rest⟩ = ⟨.ok x, c', cs⟩ := hd
  have hlater : program c' = programFuel (12 * (t :: rest).length + 12) c' :=
    fueled_eq_of_le program_extendedBy (by omega) (program_ne_pastEnd (hasEnd_of_declaration hend hd))
  rw [hwhole, hlater]
  refine (bind_of_silent (atEnd_apply t pos rest)).trans ?_
  rw [if_neg (by simp [ht]), bind_of_ok (a := x) (by rw [hfirst]), hfirst, bind_pure_apply]
  rfl

/-- A block goes on behind its first declaration. -/
theorem block_step (ht : t.kind ∉ [TokenKind.rightBrace, .eof]) (hend : HasEnd (t :: rest))
    (hd : declaration ⟨pos, t :: rest⟩ = ⟨.ok x, c', cs⟩) :
    block ⟨pos, t :: rest⟩ = (block c').after x.toList cs := by
  have hlen := length_le_of_declaration hd
  have hextended : ∀ n, (blockFuel n).ExtendedBy (blockFuel (n + 1)) :=
    fun n => (statement_extendedBy n).2.2
  have hwhole : block ⟨pos, t :: rest⟩ =
      blockFuel (12 * (t :: rest).length + 12 + 1) ⟨pos, t :: rest⟩ :=
    fueled_eq_of_le hextended (by dsimp only; omega) (block_ne_pastEnd (c := ⟨pos, t :: rest⟩) hend)
  have hfirst : declarationFuel (12 * (t :: rest).length + 12) ⟨pos, t :: rest⟩ = ⟨.ok x, c', cs⟩ := hd
  have hlater : block c' = blockFuel (12 * (t :: rest).length + 12) c' :=
    fueled_eq_of_le hextended (by omega) (block_ne_pastEnd (hasEnd_of_declaration hend hd))
  rw [hwhole, hlater]
  refine (bind_of_silent (a := t) rfl).trans ?_
  rw [if_neg (by simpa using ht), bind_of_ok (a := x) (by rw [hfirst]), hfirst, bind_pure_apply]
  rfl

end

/-- Declarations parsed one after the other, none of which starts with a token of the kinds. -/
inductive Passes (stops : List TokenKind) : Cursor → List Stmt → List Complaint → Cursor → Prop where
  | refl (c : Cursor) : Passes stops c [] [] c
  | step {pos : Nat} {t : Token} {rest : List Token} {x : Option Stmt} {c c' : Cursor}
      {ss : List Stmt} {cs ds : List Complaint} (ht : t.kind ∉ stops)
      (hd : declaration ⟨pos, t :: rest⟩ = ⟨.ok x, c, cs⟩) (h : Passes stops c ss ds c') :
      Passes stops ⟨pos, t :: rest⟩ (x.toList ++ ss) (cs ++ ds) c'

namespace Passes

variable {stops : List TokenKind} {c c' : Cursor} {ss : List Stmt} {cs : List Complaint}

theorem mono {stops' : List TokenKind} (h : Passes stops c ss cs c') (hsub : stops' ⊆ stops) :
    Passes stops' c ss cs c' := by
  induction h with
  | refl c => exact .refl c
  | step ht hd _ ih => exact .step (fun hk => ht (hsub hk)) hd ih

/-- A program goes on behind declarations as it would from there. -/
theorem program_eq (h : Passes [.eof] c ss cs c') (hc : HasEnd c.ahead) :
    program c = (program c').after ss cs := by
  induction h with
  | refl c => rw [Outcome.after_nil]
  | step ht hd _ ih =>
    have hne := fun he => ht (List.mem_singleton.mpr he)
    rw [program_step hne hc hd, ih (hasEnd_of_declaration hc hd), Outcome.after_after]

theorem block_eq (h : Passes [.rightBrace, .eof] c ss cs c') (hc : HasEnd c.ahead) :
    block c = (block c').after ss cs := by
  induction h with
  | refl c => rw [Outcome.after_nil]
  | step ht hd _ ih =>
    rw [block_step ht hc hd, ih (hasEnd_of_declaration hc hd), Outcome.after_after]

end Passes

/-- What the parser of a declaration does when it is called from outside. -/
theorem declaration_of_reads {w r : List Token} {s : Stmt} (h : Reads declarationFuel w r (some s))
    (hr : HasEnd r) (pos : Nat) :
    declaration ⟨pos, w ++ r⟩ = ⟨.ok (some s), ⟨pos + w.length, r⟩, []⟩ := by
  obtain ⟨n, hn⟩ := h
  have hread := hn n (Nat.le_refl n) pos
  have hne : (declaration ⟨pos, w ++ r⟩).result ≠ .error .pastEnd :=
    declaration_ne_pastEnd (c := ⟨pos, w ++ r⟩) (hr.append w)
  rw [← hread]
  exact fueled_eq (p := declarationFuel) (fun m => (statement_extendedBy m).1) hne (by simp [hread])

theorem Derivation.declaration_yield (d : Derivation .declaration) {r : List Token} (hr : HasEnd r)
    (pos : Nat) :
    declaration ⟨pos, d.yield ++ r⟩ = ⟨.ok (some d.tree), ⟨pos + d.yield.length, r⟩, []⟩ :=
  declaration_of_reads (d.read r hr) hr pos

/-- Derived declarations are passed over to their statements, without complaint. -/
theorem Derivation.passes {r : List Token} (hr : HasEnd r) :
    (d : Derivation .declarations) → (pos : Nat) →
      Passes [.rightBrace, .eof] ⟨pos, d.yield ++ r⟩ d.tree [] ⟨pos + d.yield.length, r⟩
  | .nil, pos => .refl _
  | .cons first rest, pos => by
    obtain ⟨t, w, hw, ht⟩ := first.starts (by simp [Symbol.first])
    have hfirst := first.declaration_yield (hr.append rest.yield) pos
    have hrest := passes hr rest (pos + first.yield.length)
    have hkind : t.kind ∉ [TokenKind.rightBrace, .eof] := by
      revert ht
      cases t.kind <;> decide
    simp only [yield, tree, List.append_assoc, List.length_append, ← Nat.add_assoc]
    rw [hw, List.cons_append] at hfirst ⊢
    rw [hw] at hrest
    exact .step hkind hfirst hrest

theorem program_atEnd {e : Token} (he : e.kind = .eof) (pos : Nat) (rest : List Token) :
    program ⟨pos, e :: rest⟩ = ⟨.ok [], ⟨pos, e :: rest⟩, []⟩ := by
  refine (bind_of_silent (atEnd_apply e pos rest)).trans ?_
  rw [if_pos (by simp [he])]
  rfl

/-- A program that is parsed at one place is parsed alike at later ones. -/
theorem program_later {ts : List Token} {ss : List Stmt} (h : (parse ts).result = .ok ss) (k : Nat) :
    (program ⟨k, ts⟩).result = .ok ss ∧
      (program ⟨k, ts⟩).complaints = (parse ts).complaints.map (Relocation.later k).complaint := by
  have hmoved := program_cursor (.later k) ⟨0, ts⟩
  have hcursor : (Relocation.later k).cursor ⟨0, ts⟩ = ⟨k, ts⟩ := by
    simp [Relocation.cursor, Relocation.later]
  rw [hcursor, show program ⟨0, ts⟩ = parse ts from rfl, h] at hmoved
  rw [hmoved]
  exact ⟨congrArg Except.ok (Relocation.stmts_later k ss), rfl⟩

theorem Derivation.program_yield (d : Derivation .declarations) {e : Token} (he : e.kind = .eof)
    (pos : Nat) :
    (program ⟨pos, d.yield ++ [e]⟩).result = .ok d.tree ∧
      (program ⟨pos, d.yield ++ [e]⟩).complaints = [] := by
  have hparse := d.parse_yield he
  have hok : (parse (d.yield ++ [e])).result = .ok d.tree := by rw [hparse]
  obtain ⟨hresult, hcomplaints⟩ := program_later hok pos
  rw [hparse] at hcomplaints
  exact ⟨hresult, hcomplaints⟩

/-- Behind a beginning that is parsed without complaint, a program goes on as it would from there. -/
theorem program_append_of_silent {ts : List Token} {e : Token} (he : e.kind = .eof)
    (hts : ∀ t ∈ ts, t.kind ≠ .eof) (h : (parse (ts ++ [e])).complaints = []) :
    ∃ ss, (parse (ts ++ [e])).result = .ok ss ∧ ∀ r, HasEnd r →
      program ⟨0, ts ++ r⟩ = (program ⟨ts.length, r⟩).after ss [] := by
  obtain ⟨d, rfl⟩ := exists_derivation_of_silent he hts h
  refine ⟨d.tree, by rw [d.parse_yield he], fun r hr => ?_⟩
  have hpasses : Passes [.eof] ⟨0, d.yield ++ r⟩ d.tree [] ⟨0 + d.yield.length, r⟩ :=
    (d.passes hr 0).mono (by simp)
  rw [hpasses.program_eq (hr.append d.yield), Nat.zero_add]

end LoxLang.Grammar
