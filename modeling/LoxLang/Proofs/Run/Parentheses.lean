import LoxLang.Proofs.Grammar.Completeness
import LoxLang.Proofs.Grammar.WellFormed
import LoxLang.Run.Exec

/-!
Every tree can be written down. With parentheses around its operands the text of an expression is
read back as the expression, however its operators are nested, and the parentheses in the tree
change nothing in what it does.
-/
namespace LoxLang

namespace Expr

/-- The expression without any parentheses. -/
def ungrouped : Expr → Expr
  | .literal v => .literal v
  | .grouping e => e.ungrouped
  | .unary operator e => .unary operator e.ungrouped
  | .binary l operator r => .binary l.ungrouped operator r.ungrouped
  | .variable name => .variable name
  | .assign name e => .assign name e.ungrouped

/-- The expression as it can stand at an operator: in parentheses, if it is not a literal or a
variable. -/
def enclosed : Expr → Expr
  | .literal v => .literal v
  | .variable name => .variable name
  | e => .grouping e

/-- The expression with all operands and assigned values enclosed. -/
def parenthesized : Expr → Expr
  | .literal v => .literal v
  | .grouping e => .grouping e.parenthesized
  | .unary operator e => .unary operator e.parenthesized.enclosed
  | .binary l operator r => .binary l.parenthesized.enclosed operator r.parenthesized.enclosed
  | .variable name => .variable name
  | .assign name e => .assign name e.parenthesized.enclosed

theorem ungrouped_enclosed (e : Expr) : e.enclosed.ungrouped = e.ungrouped := by
  cases e <;> rfl

theorem ungrouped_parenthesized (e : Expr) : e.parenthesized.ungrouped = e.ungrouped := by
  induction e with
  | literal v => rfl
  | grouping e ih => exact ih
  | unary operator e ih => simp only [parenthesized, ungrouped, ungrouped_enclosed, ih]
  | binary l operator r ihl ihr => simp only [parenthesized, ungrouped, ungrouped_enclosed, ihl, ihr]
  | «variable» name => rfl
  | assign name e ih => simp only [parenthesized, ungrouped, ungrouped_enclosed, ih]

end Expr

/-- A token that stands for a value. -/
def Value.spelled : Value → Token
  | .nil => ⟨.nilWord, "nil", .nil, 1⟩
  | .bool true => ⟨.trueWord, "true", .nil, 1⟩
  | .bool false => ⟨.falseWord, "false", .nil, 1⟩
  | .string (.whole s) => ⟨.string, "\"" ++ s ++ "\"", .string s, 1⟩
  | .number x => ⟨.number, printedNumber x, .number x, 1⟩
  -- no source text has a literal for the others
  | v => ⟨.string, "", v, 1⟩

end LoxLang

namespace LoxLang.Grammar

/-- A token as the tree shows it. -/
def Piece.spelled : Piece → Token
  | .token t => t
  | .mark kind => ⟨kind, "", .nil, 1⟩
  | .constant v => v.spelled

theorem Piece.fits_spelled (p : Piece) : p.Fits p.spelled := by
  cases p with
  | token t => rfl
  | mark kind => rfl
  | constant v =>
    cases v with
    | bool b => cases b <;> exact ⟨by decide, rfl⟩
    | string s => cases s <;> exact ⟨by simp [spelled, Value.spelled, literalKinds], rfl⟩
    | _ => exact ⟨by simp [spelled, Value.spelled, literalKinds], rfl⟩

/-- All that the pieces show can be written. -/
theorem exists_fits (ps : List Piece) : ∃ us, List.Forall₂ Piece.Fits ps us := by
  refine ⟨ps.map Piece.spelled, ?_⟩
  rw [List.forall₂_map_right_iff, List.forall₂_same]
  exact fun p _ => p.fits_spelled

theorem fits_append_iff {ps qs : List Piece} {us : List Token} :
    List.Forall₂ Piece.Fits (ps ++ qs) us ↔
      ∃ vs ws, us = vs ++ ws ∧ List.Forall₂ Piece.Fits ps vs ∧ List.Forall₂ Piece.Fits qs ws := by
  constructor
  · intro h
    induction ps generalizing us with
    | nil => exact ⟨[], us, rfl, .nil, h⟩
    | cons p ps ih =>
      obtain ⟨u, us, hu, hus, rfl⟩ := List.forall₂_cons_left_iff.mp h
      obtain ⟨vs, ws, rfl, hvs, hws⟩ := ih hus
      exact ⟨u :: vs, ws, rfl, .cons hu hvs, hws⟩
  · rintro ⟨vs, ws, rfl, hvs, hws⟩
    exact List.rel_append hvs hws

/-- Every way to write the pieces is derived from the symbol, with the given tree. -/
def Spells (s : Symbol) (tree : s.Tree) (ps : List Piece) : Prop :=
  ∀ us, List.Forall₂ Piece.Fits ps us → ∃ d : Derivation s, d.yield = us ∧ d.tree = tree

namespace Spells

variable {ps qs : List Piece} {e a b : Expr} {l : Level}

theorem literal (v : Value) : Spells .primary (Expr.literal v) [.constant v] := by
  intro us h
  obtain ⟨u, _, ⟨hkind, rfl⟩, hnil, rfl⟩ := List.forall₂_cons_left_iff.mp h
  cases hnil
  exact ⟨.literal ⟨u, hkind⟩, rfl, rfl⟩

theorem identifier {name : Token} (h : name.kind = .identifier) :
    Spells .primary (Expr.variable name) [.token name] := by
  intro us hus
  obtain ⟨_, _, rfl, hnil, rfl⟩ := List.forall₂_cons_left_iff.mp hus
  cases hnil
  exact ⟨.identifier ⟨_, List.mem_singleton.mpr h⟩, rfl, rfl⟩

theorem grouping (h : Spells .assignment e ps) :
    Spells .primary (Expr.grouping e) (.mark .leftParen :: (ps ++ [.mark .rightParen])) := by
  intro us hus
  obtain ⟨left, _, hleft, hrest, rfl⟩ := List.forall₂_cons_left_iff.mp hus
  obtain ⟨vs, ws, rfl, hvs, hws⟩ := fits_append_iff.mp hrest
  obtain ⟨right, _, hright, hnil, rfl⟩ := List.forall₂_cons_left_iff.mp hws
  cases hnil
  obtain ⟨d, rfl, rfl⟩ := h vs hvs
  exact ⟨.grouping ⟨left, List.mem_singleton.mpr hleft⟩ (.expression d)
    ⟨right, List.mem_singleton.mpr hright⟩, rfl, rfl⟩

theorem primary (h : Spells .primary e ps) : Spells .unary e ps := by
  intro us hus
  obtain ⟨d, hyield, htree⟩ := h us hus
  exact ⟨.primary d, hyield, htree⟩

theorem unary {operator : Token} (ho : operator.kind ∈ [TokenKind.bang, .minus])
    (h : Spells .unary e ps) : Spells .unary (Expr.unary operator e) (.token operator :: ps) := by
  intro us hus
  obtain ⟨_, vs, rfl, hvs, rfl⟩ := List.forall₂_cons_left_iff.mp hus
  obtain ⟨d, rfl, rfl⟩ := h vs hvs
  exact ⟨.unary ⟨_, ho⟩ d, rfl, rfl⟩

theorem level (h : Spells (.operand l) e ps) : Spells (.level l) e ps := by
  intro us hus
  obtain ⟨d, rfl, htree⟩ := h us hus
  exact ⟨.level d .chainEnd, List.append_nil _, htree⟩

theorem tighter {l' : Level} (hl : l.Above l') (h : Spells (.level l') e ps) :
    Spells (.operand l) e ps := by
  intro us hus
  obtain ⟨d, hyield, htree⟩ := h us hus
  exact ⟨.tighter hl d, hyield, htree⟩

theorem tightest (h : Spells .unary e ps) : Spells (.operand .factor) e ps := by
  intro us hus
  obtain ⟨d, hyield, htree⟩ := h us hus
  exact ⟨.tightest d, hyield, htree⟩

/-- What is written as a unary expression can be an operand of every level. -/
theorem operand (h : Spells .unary e ps) (l : Level) : Spells (.operand l) e ps := by
  have hfactor : Spells (.operand .factor) e ps := tightest h
  have hterm : Spells (.operand .term) e ps := tighter .term hfactor.level
  have hcomparison : Spells (.operand .comparison) e ps := tighter .comparison hterm.level
  cases l with
  | equality => exact tighter .equality hcomparison.level
  | comparison => exact hcomparison
  | term => exact hterm
  | factor => exact hfactor

theorem binary {operator : Token} (ho : operator.kind ∈ l.terminals) (ha : Spells (.operand l) a ps)
    (hb : Spells (.operand l) b qs) :
    Spells (.level l) (Expr.binary a operator b) (ps ++ .token operator :: qs) := by
  intro us hus
  obtain ⟨vs, _, rfl, hvs, hrest⟩ := fits_append_iff.mp hus
  obtain ⟨_, ws, rfl, hws, rfl⟩ := List.forall₂_cons_left_iff.mp hrest
  obtain ⟨d, rfl, rfl⟩ := ha vs hvs
  obtain ⟨d', rfl, rfl⟩ := hb ws hws
  refine ⟨.level d (.chainStep ⟨_, ho⟩ d' .chainEnd), ?_, rfl⟩
  simp only [Derivation.yield, List.append_nil]

/-- What is written at one of the levels is a whole expression. -/
theorem assignment (h : Spells (.level l) e ps) : Spells .assignment e ps := by
  have hcomparison (h : Spells (.level .comparison) e ps) : Spells (.level .equality) e ps :=
    (tighter .equality h).level
  have hterm (h : Spells (.level .term) e ps) : Spells (.level .equality) e ps :=
    hcomparison (tighter .comparison h).level
  have hequality : Spells (.level .equality) e ps := by
    cases l with
    | equality => exact h
    | comparison => exact hcomparison h
    | term => exact hterm h
    | factor => exact hterm (tighter .term h).level
  intro us hus
  obtain ⟨d, hyield, htree⟩ := hequality us hus
  exact ⟨.equality d, hyield, htree⟩

theorem assign {name : Token} (hn : name.kind = .identifier) (h : Spells .assignment e ps) :
    Spells .assignment (Expr.assign name e) (.token name :: .mark .equal :: ps) := by
  intro us hus
  obtain ⟨_, _, rfl, hrest, rfl⟩ := List.forall₂_cons_left_iff.mp hus
  obtain ⟨equals, vs, hequals, hvs, rfl⟩ := List.forall₂_cons_left_iff.mp hrest
  obtain ⟨d, rfl, rfl⟩ := h vs hvs
  exact ⟨.assign ⟨_, List.mem_singleton.mpr hn⟩ ⟨equals, List.mem_singleton.mpr hequals⟩ d, rfl, rfl⟩

end Spells

theorem exists_level_of_mem {kind : TokenKind} (h : kind ∈ binaryKinds) :
    ∃ l : Level, kind ∈ l.terminals := by
  have hkinds : binaryKinds = Level.equality.terminals ++ (Level.comparison.terminals ++
      (Level.term.terminals ++ Level.factor.terminals)) := rfl
  rw [hkinds, List.mem_append, List.mem_append, List.mem_append] at h
  rcases h with h | h | h | h
  · exact ⟨.equality, h⟩
  · exact ⟨.comparison, h⟩
  · exact ⟨.term, h⟩
  · exact ⟨.factor, h⟩

/-- A primary expression is a whole expression. -/
theorem Spells.whole {e : Expr} {ps : List Piece} (h : Spells .primary e ps) :
    Spells .assignment e ps :=
  (h.primary.operand .equality).level.assignment

/-- What is written as an expression is written as an operand when it is enclosed. -/
theorem Spells.enclosed {e : Expr} (he : e.WellFormed) (h : Spells .assignment e e.pieces) :
    Spells .primary e.enclosed e.enclosed.pieces := by
  cases e with
  | literal v => exact Spells.literal v
  | «variable» name => exact Spells.identifier he.1
  | _ => exact h.grouping

theorem wellFormed_enclosed {e : Expr} (he : e.WellFormed) : e.enclosed.WellFormed := by
  cases e <;> exact he

theorem wellFormed_parenthesized {e : Expr} (he : e.WellFormed) : e.parenthesized.WellFormed := by
  induction e with
  | literal v => exact he
  | grouping e ih => exact ih he
  | unary operator e ih => exact ⟨he.1, he.2.1, wellFormed_enclosed (ih he.2.2)⟩
  | binary l operator r ihl ihr =>
    exact ⟨he.1, he.2.1, wellFormed_enclosed (ihl he.2.2.1), wellFormed_enclosed (ihr he.2.2.2)⟩
  | «variable» name => exact he
  | assign name e ih => exact ⟨he.1, he.2.1, wellFormed_enclosed (ih he.2.2)⟩

/-- With parentheses an expression of any shape is written as the grammar wants it. -/
theorem spells_parenthesized {e : Expr} (he : e.WellFormed) :
    Spells .assignment e.parenthesized e.parenthesized.pieces := by
  induction e with
  | literal v => exact (Spells.literal v).whole
  | grouping e ih => exact (ih he).grouping.whole
  | unary operator e ih =>
    have hright := (ih he.2.2).enclosed (wellFormed_parenthesized he.2.2)
    exact ((hright.primary.unary he.1).operand .equality).level.assignment
  | binary l operator r ihl ihr =>
    obtain ⟨hk, -, hl, hr⟩ := he
    obtain ⟨level, hlevel⟩ := exists_level_of_mem hk
    have hleft := (ihl hl).enclosed (wellFormed_parenthesized hl)
    have hright := (ihr hr).enclosed (wellFormed_parenthesized hr)
    exact (Spells.binary hlevel (hleft.primary.operand level) (hright.primary.operand level)).assignment
  | «variable» name => exact (Spells.identifier he.1).whole
  | assign name e ih =>
    have hvalue := (ih he.2.2).enclosed (wellFormed_parenthesized he.2.2)
    exact hvalue.whole.assign he.1

/-- In front of a semicolon the parser of expressions reads all that is spelled. -/
theorem Spells.expression_eq {e : Expr} {ps : List Piece} (h : Spells .assignment e ps)
    {us : List Token} (hus : List.Forall₂ Piece.Fits ps us) {semicolon eof : Token}
    (hs : semicolon.kind = .semicolon) (heof : eof.kind = .eof) (pos : Nat) :
    expression ⟨pos, us ++ [semicolon, eof]⟩ =
      ⟨.ok e, ⟨pos + us.length, [semicolon, eof]⟩, []⟩ := by
  obtain ⟨d, rfl, rfl⟩ := h us hus
  have hstops : Stops (.equal :: Level.equality.loops) [semicolon, eof] :=
    ⟨semicolon, [eof], rfl, by rw [hs]; decide⟩
  have hend : HasEnd [semicolon, eof] := ⟨eof, by simp, heof⟩
  exact expression_of_reads (d.read _ hstops) hend pos

end LoxLang.Grammar

namespace LoxLang.Run

open Grammar

theorem evaluate_ungrouped (e : Expr) : evaluate e.ungrouped.toValue = evaluate e.toValue := by
  induction e with
  | literal v => rfl
  | grouping e ih => exact ih
  | unary operator e ih => simp only [Expr.ungrouped, Expr.toValue, evaluate, ih]
  | binary l operator r ihl ihr => simp only [Expr.ungrouped, Expr.toValue, evaluate, ihl, ihr]
  | «variable» name => rfl
  | assign name e ih => simp only [Expr.ungrouped, Expr.toValue, evaluate, ih]

/-- Every expression, however its operators are nested, can be written with parentheses around its
operands and assigned values. Whichever tokens this is done with, in front of a semicolon the parser
takes all of them and no more, complains of nothing and builds a tree that differs from the
expression in parentheses only; and evaluated in any scopes the two have the same result and leave
the same behind. -/
theorem parentheses_read_back {e : Expr} (he : e.WellFormed) :
    (∃ us, List.Forall₂ Piece.Fits e.parenthesized.pieces us) ∧
    ∀ us, List.Forall₂ Piece.Fits e.parenthesized.pieces us →
      ∀ semicolon eof : Token, semicolon.kind = .semicolon → eof.kind = .eof → ∀ pos,
        ∃ e' : Expr, expression ⟨pos, us ++ [semicolon, eof]⟩ =
            ⟨.ok e', ⟨pos + us.length, [semicolon, eof]⟩, []⟩ ∧
          e'.ungrouped = e.ungrouped ∧
          ∀ w : World, evaluate e'.toValue w = evaluate e.toValue w := by
  refine ⟨exists_fits _, ?_⟩
  intro us hus semicolon eof hs heof pos
  have hungrouped := e.ungrouped_parenthesized
  refine ⟨e.parenthesized, (spells_parenthesized he).expression_eq hus hs heof pos, hungrouped, ?_⟩
  intro w
  rw [← evaluate_ungrouped e.parenthesized, hungrouped, evaluate_ungrouped]

/-- The product of `a = !b` and `nil + a`, as no text without parentheses has it. -/
private def looseFactors : Expr :=
  let a : Token := ⟨.identifier, "a", .nil, 1⟩
  .binary (.assign a (.unary ⟨.bang, "!", .nil, 1⟩ (.variable ⟨.identifier, "b", .nil, 1⟩)))
    ⟨.star, "*", .nil, 1⟩ (.binary (.literal .nil) ⟨.plus, "+", .nil, 1⟩ (.variable a))

/-- The tokens of `(a = (!b)) * (nil + a)`. -/
private def looseTokens : List Token :=
  [⟨.leftParen, "(", .nil, 1⟩, ⟨.identifier, "a", .nil, 1⟩, ⟨.equal, "=", .nil, 1⟩,
    ⟨.leftParen, "(", .nil, 1⟩, ⟨.bang, "!", .nil, 1⟩, ⟨.identifier, "b", .nil, 1⟩,
    ⟨.rightParen, ")", .nil, 1⟩, ⟨.rightParen, ")", .nil, 1⟩, ⟨.star, "*", .nil, 1⟩,
    ⟨.leftParen, "(", .nil, 1⟩, ⟨.nilWord, "nil", .nil, 1⟩, ⟨.plus, "+", .nil, 1⟩,
    ⟨.identifier, "a", .nil, 1⟩, ⟨.rightParen, ")", .nil, 1⟩]

theorem parentheses_read_back_looseFactors :
    let rest : List Token := [⟨.semicolon, ";", .nil, 1⟩, ⟨.eof, "", .nil, 1⟩]
    looseFactors.WellFormed ∧ List.Forall₂ Piece.Fits looseFactors.parenthesized.pieces looseTokens ∧
    ∃ e' : Expr, expression ⟨0, looseTokens ++ rest⟩ = ⟨.ok e', ⟨14, rest⟩, []⟩ ∧
      e'.ungrouped = looseFactors ∧
      ∀ w : World, evaluate e'.toValue w = evaluate looseFactors.toValue w := by
  have hwell : looseFactors.WellFormed := by
    simp [looseFactors, Expr.WellFormed, Expr.Consists, binaryKinds, Value.isLox]
  have hfits : List.Forall₂ Piece.Fits looseFactors.parenthesized.pieces looseTokens := by
    simp [looseFactors, looseTokens, Expr.parenthesized, Expr.enclosed, Expr.pieces, Piece.Fits,
      literalKinds, literalValue]
  exact ⟨hwell, hfits, (parentheses_read_back hwell).2 _ hfits _ _ rfl rfl 0⟩

end LoxLang.Run
