import LoxLang.Proofs.Grammar.Acceptance

/-!
What is left of a program with syntax errors. Recovery only leaves tokens out: the statements that
were parsed are the tree of a derivation, and that derives some of the tokens of the list, in order.
-/
namespace LoxLang

open Grammar

/-! How the grammar lets expressions stand inside each other. -/

namespace Grammar.Level

/-- The place of a level between assignments, which bind the loosest, and unary expressions. -/
def standing : Level → Nat
  | .equality => 1
  | .comparison => 2
  | .term => 3
  | .factor => 4

/-- The level of a binary operator. -/
def ofKind? (kind : TokenKind) : Option Level :=
  [.equality, .comparison, .term, .factor].find? fun l : Level => kind ∈ l.terminals

theorem ofKind?_of_mem {l : Level} {kind : TokenKind} (h : kind ∈ l.terminals) :
    ofKind? kind = some l := by
  revert h
  cases l <;> cases kind <;> decide

theorem Above.standing_lt {l l' : Level} (h : l.Above l') : l.standing < l'.standing := by
  cases h <;> decide

end Grammar.Level

namespace Expr

/-- How tightly the outermost part of an expression binds. -/
def standing : Expr → Nat
  | .assign .. => 0
  | .binary _ operator _ => (Level.ofKind? operator.kind).elim 0 Level.standing
  | .unary .. => 5
  | .literal _ | .grouping _ | .variable _ => 6

/-- Every operand binds as tightly as its operator needs: the left operand of a level at least like
the level, the right one tighter, and an operand of a unary operator like a unary expression. An
assignment, which binds looser than all of them, is no operand. -/
def Grammatical : Expr → Prop
  | .literal _ => True
  | .variable name => name.kind = .identifier
  | .grouping inner => inner.Grammatical
  | .unary operator right =>
    operator.kind ∈ [.bang, .minus] ∧ 5 ≤ right.standing ∧ right.Grammatical
  | .binary left operator right =>
    ∃ l : Level, operator.kind ∈ l.terminals ∧ l.standing ≤ left.standing ∧
      l.standing < right.standing ∧ left.Grammatical ∧ right.Grammatical
  | .assign name value => name.kind = .identifier ∧ value.Grammatical

theorem standing_binary {l : Level} {operator : Token} (h : operator.kind ∈ l.terminals)
    (left right : Expr) : (binary left operator right).standing = l.standing := by
  rw [standing, Level.ofKind?_of_mem h, Option.elim_some]

end Expr

mutual

/-- A statement and those nested in it. -/
def Stmt.nested : Stmt → List Stmt
  | .block body => .block body :: Stmt.allNested body
  | s => [s]

def Stmt.allNested : List Stmt → List Stmt
  | [] => []
  | s :: ss => s.nested ++ Stmt.allNested ss

end

/-- The name is one and the expressions are grammatical; the statements of a block are not looked
at, they are nested statements of their own. -/
def Stmt.Grammatical : Stmt → Prop
  | .expression e | .print e => e.Grammatical
  | .var name initializer => name.kind = .identifier ∧ ∀ e ∈ initializer, e.Grammatical
  | .block _ => True

end LoxLang

namespace LoxLang.Grammar

open Parse

/-- A statement that the grammar derives, with expressions as the grammar builds them. -/
def Derived (s : Stmt) : Prop :=
  s.Grammatical ∧ ∃ d : Derivation .declaration, d.tree = s

/-- What the tree of a derivation is like, by its symbol. -/
def Derivation.Fits : {s : Symbol} → Derivation s → Prop
  | .declarations, d => ∀ s ∈ Stmt.allNested d.tree, Derived s
  | .declaration, d | .statement, d => ∀ s ∈ Stmt.nested d.tree, Derived s
  | .expression, d | .assignment, d => Expr.Grammatical d.tree
  | .level l, d => Expr.Grammatical d.tree ∧ l.standing ≤ Expr.standing d.tree
  | .operand l, d => Expr.Grammatical d.tree ∧ l.standing < Expr.standing d.tree
  | .chain l, d => ∀ left : Expr, left.Grammatical → l.standing ≤ left.standing →
      Expr.Grammatical (d.tree left) ∧ l.standing ≤ Expr.standing (d.tree left)
  | .unary, d => Expr.Grammatical d.tree ∧ 5 ≤ Expr.standing d.tree
  | .primary, d => Expr.Grammatical d.tree ∧ 6 ≤ Expr.standing d.tree

theorem Derivation.fits {s : Symbol} (d : Derivation s) : d.Fits := by
  induction d with
  | nil => nofun
  | cons first rest hfirst hrest => exact List.forall_mem_append.mpr ⟨hfirst, hrest⟩
  | var word name semicolon =>
    have hname : name.token.kind = .identifier := List.mem_singleton.mp name.kind_mem
    refine List.forall_mem_singleton.mpr ⟨⟨hname, nofun⟩, .var word name semicolon, rfl⟩
  | varWith word name equals value semicolon hvalue =>
    have hname : name.token.kind = .identifier := List.mem_singleton.mp name.kind_mem
    refine List.forall_mem_singleton.mpr
      ⟨⟨hname, ?_⟩, .varWith word name equals value semicolon, rfl⟩
    rintro _ ⟨⟩
    exact hvalue
  | statement s hs => exact hs
  | print word value semicolon hvalue =>
    exact List.forall_mem_singleton.mpr ⟨hvalue, .statement (.print word value semicolon), rfl⟩
  | block left body right hbody =>
    exact List.forall_mem_cons.mpr
      ⟨⟨trivial, .statement (.block left body right), rfl⟩, hbody⟩
  | expressionStatement value semicolon hvalue =>
    exact List.forall_mem_singleton.mpr
      ⟨hvalue, .statement (.expressionStatement value semicolon), rfl⟩
  | expression a ha => exact ha
  | assign name equals value hvalue => exact ⟨List.mem_singleton.mp name.kind_mem, hvalue⟩
  | equality e he => exact he.1
  | level first rest hfirst hrest => exact hrest _ hfirst.1 (Nat.le_of_lt hfirst.2)
  | tighter h e he => exact ⟨he.1, Nat.lt_of_lt_of_le h.standing_lt he.2⟩
  | tightest e he => exact ⟨he.1, Nat.lt_of_lt_of_le (by decide) he.2⟩
  | chainEnd => exact fun left hleft hstanding => ⟨hleft, hstanding⟩
  | @chainStep l operator right rest hright hrest =>
    intro left hleft hstanding
    refine hrest _ ⟨l, operator.kind_mem, hstanding, hright.2, hleft, hright.1⟩ ?_
    exact Nat.le_of_eq (Expr.standing_binary operator.kind_mem left right.tree).symm
  | unary operator right hright => exact ⟨⟨operator.kind_mem, hright.2, hright.1⟩, Nat.le_refl 5⟩
  | primary e he => exact ⟨he.1, Nat.le_of_succ_le he.2⟩
  | literal => exact ⟨trivial, Nat.le_refl 6⟩
  | identifier t => exact ⟨List.mem_singleton.mp t.kind_mem, Nat.le_refl 6⟩
  | grouping left inner right hinner => exact ⟨hinner, Nat.le_refl 6⟩

/-! Parsers draw their results from the tokens that they pass over. -/

variable {α β : Type}

namespace Parse

/-- Every result comes, as the relation says, of some of the tokens passed over, in order. -/
def Draws (Q : α → List Token → Prop) (p : Parse α) : Prop :=
  ∀ c a, (p c).result = .ok a →
    ∃ used ys, c.ahead = used ++ (p c).cursor.ahead ∧ ys.Sublist used ∧ Q a ys

variable {Q : α → List Token → Prop} {R : β → List Token → Prop} {p : Parse α} {f : α → Parse β}

theorem Draws.bind (hp : p.Draws Q)
    (hf : ∀ a ys, Q a ys → (f a).Draws fun b zs => R b (ys ++ zs)) : (p >>= f).Draws R := by
  intro c b hb
  cases hr : (p c).result with
  | error stop =>
    rw [bind_of_error hr] at hb
    cases hb
  | ok a =>
    rw [bind_of_ok hr] at hb ⊢
    obtain ⟨used, ys, hahead, hys, hQ⟩ := hp c a hr
    obtain ⟨used', zs, hahead', hzs, hR⟩ := hf a ys hQ _ b hb
    refine ⟨used ++ used', ys ++ zs, ?_, hys.append hzs, hR⟩
    rw [hahead, hahead', List.append_assoc]

/-- Some of the tokens that the relation is about may be left out. -/
theorem Draws.of_sublist (hp : p.Draws fun a ys => ∃ zs, zs.Sublist ys ∧ Q a zs) : p.Draws Q := by
  intro c a ha
  obtain ⟨used, ys, hahead, hys, zs, hzs, hQ⟩ := hp c a ha
  exact ⟨used, zs, hahead, hzs.trans hys, hQ⟩

theorem Draws.mono {Q' : α → List Token → Prop} (hp : p.Draws Q) (h : ∀ a ys, Q a ys → Q' a ys) :
    p.Draws Q' := by
  intro c a ha
  obtain ⟨used, ys, hahead, hys, hQ⟩ := hp c a ha
  exact ⟨used, ys, hahead, hys, h a ys hQ⟩

theorem draws_pure {a : α} (h : Q a []) : (Pure.pure a : Parse α).Draws Q := by
  rintro c _ ⟨⟩
  exact ⟨[], [], rfl, .refl _, h⟩

theorem draws_pastEnd : (pastEnd : Parse α).Draws Q := by
  rintro c _ ⟨⟩

theorem draws_raiseHere (problem : Problem) : (raiseHere problem : Parse α).Draws Q := by
  rintro ⟨pos, _ | ⟨t, rest⟩⟩ _ ⟨⟩

/-- All that a parser passes over may be left out. -/
theorem Moves.draws {P : Token → Prop} {n : Nat} (hp : p.Moves P n) :
    p.Draws fun _ ys => ys = [] := by
  intro c a _
  obtain ⟨used, -, hahead, -⟩ := (hp c).reaches
  exact ⟨used, [], hahead, List.nil_sublist used, rfl⟩

theorem draws_accept_bind {kinds : List TokenKind} {g : Option Token → Parse β}
    (hs : ∀ t : Terminal kinds, (g (some t.token)).Draws fun b zs => R b (t.token :: zs))
    (hn : (g none).Draws R) : (accept kinds >>= g).Draws R := by
  rintro ⟨pos, _ | ⟨t, rest⟩⟩ b hb
  · cases hb
  by_cases ht : t.kind ≠ .eof ∧ t.kind ∈ kinds
  · rw [accept_bind_of_mem ht.1 ht.2] at hb ⊢
    obtain ⟨used, zs, hahead, hzs, hR⟩ := hs ⟨t, ht.2⟩ _ b hb
    exact ⟨t :: used, t :: zs, congrArg (t :: ·) hahead, hzs.cons_cons t, hR⟩
  · rw [accept_bind_of_not ht] at hb ⊢
    exact hn _ b hb

theorem draws_consume (kind : TokenKind) (problem : Problem) :
    (consume kind problem).Draws fun t ys => ∃ s : Terminal [kind], s.token = t ∧ ys = [t] :=
  draws_accept_bind (fun t => draws_pure ⟨t, rfl, rfl⟩) (draws_raiseHere problem)

/-- What was given up comes of no token at all. -/
theorem Draws.recovering {n : Nat} (hm : p.Moves NotEnd n) (hp : p.Draws Q) :
    (recovering p).Draws fun o ys => (∃ a, o = some a ∧ Q a ys) ∨ o = none ∧ ys = [] := by
  intro c o ho
  cases hr : (p c).result with
  | ok a =>
    rw [recovering_of_ok hr] at ho ⊢
    cases ho
    obtain ⟨used, ys, hahead, hys, hQ⟩ := hp c a hr
    exact ⟨used, ys, hahead, hys, .inl ⟨a, rfl, hQ⟩⟩
  | error stop =>
    obtain ⟨used, ys, hahead, hys, rfl⟩ := (moves_recovering hm).draws c o ho
    refine ⟨used, [], hahead, hys, .inr ⟨?_, rfl⟩⟩
    cases stop with
    | pastEnd =>
      rw [recovering_of_pastEnd hr] at ho
      cases ho
    | raised b =>
      rw [recovering_of_raised hr] at ho
      cases hs : (synchronize (p c).cursor).result with
      | error stop =>
        rw [hs] at ho
        cases ho
      | ok u =>
        rw [hs] at ho
        cases ho
        rfl

end Parse

/-- The results of the parser are the trees of derivations from tokens that it passed over. -/
def Salvages (s : Symbol) (p : Parse s.Tree) : Prop :=
  p.Draws fun a ys => ∃ d : Derivation s, d.tree = a ∧ d.yield = ys

/-- The same for the chain of a level behind its first operand. -/
def SalvagesChain (l : Level) (p : Expr → Parse Expr) : Prop :=
  ∀ left, (p left).Draws fun e ys => ∃ d : Derivation (.chain l), d.tree left = e ∧ d.yield = ys

section

variable {fuel : Nat}

theorem salvages_assignmentFuel (hl : Salvages (.level .equality) (levelFuel fuel .equality))
    (ha : Salvages .assignment (assignmentFuel fuel)) :
    Salvages .assignment (assignmentFuel (fuel + 1)) := by
  refine Draws.of_sublist (hl.bind ?_)
  rintro left _ ⟨d, hd, rfl⟩
  refine draws_accept_bind (fun equals => ?_)
    (draws_pure ⟨d.yield, by simp, .equality d, hd, rfl⟩)
  refine (moves_position (P := NotEnd)).draws.bind ?_
  rintro pos _ rfl
  refine ha.bind ?_
  rintro value _ ⟨dv, rfl, rfl⟩
  cases left with
  | «variable» name =>
    obtain ⟨t, rfl, hyield⟩ := d.namesOnly name hd
    refine draws_pure ⟨_, .refl _, .assign t equals dv, rfl, ?_⟩
    simp [Derivation.yield, hyield]
  | _ =>
    -- the left side stands for the whole, and what follows it is left out
    refine (moves_complain (P := NotEnd) _).draws.bind ?_
    rintro _ _ rfl
    exact draws_pure ⟨_, List.sublist_append_left _ _, .equality d, hd, rfl⟩

theorem salvages_levelFuel {l : Level} (ho : Salvages (.operand l) (operandFuel fuel l))
    (hc : SalvagesChain l (chainFuel fuel l)) : Salvages (.level l) (levelFuel (fuel + 1) l) := by
  refine ho.bind ?_
  rintro first _ ⟨d, rfl, rfl⟩
  refine (hc d.tree).mono ?_
  rintro e _ ⟨dc, rfl, rfl⟩
  exact ⟨.level d dc, rfl, rfl⟩

theorem salvages_operandFuel (l : Level) (hl : ∀ l', Salvages (.level l') (levelFuel fuel l'))
    (hu : Salvages .unary (unaryFuel fuel)) : Salvages (.operand l) (operandFuel (fuel + 1) l) := by
  unfold operandFuel
  cases hl' : l.tighter with
  | some l' =>
    refine (hl l').mono ?_
    rintro e _ ⟨d, rfl, rfl⟩
    exact ⟨.tighter (Level.tighter_eq_some_iff.mp hl') d, rfl, rfl⟩
  | none =>
    obtain rfl := Level.tighter_eq_none_iff.mp hl'
    refine hu.mono ?_
    rintro e _ ⟨d, rfl, rfl⟩
    exact ⟨.tightest d, rfl, rfl⟩

theorem salvages_chainFuel {l : Level} (ho : Salvages (.operand l) (operandFuel fuel l))
    (hc : SalvagesChain l (chainFuel fuel l)) : SalvagesChain l (chainFuel (fuel + 1) l) := by
  intro left
  refine draws_accept_bind (fun operator => ?_) (draws_pure ⟨.chainEnd, rfl, rfl⟩)
  refine ho.bind ?_
  rintro right _ ⟨d, rfl, rfl⟩
  refine (hc _).mono ?_
  rintro e _ ⟨dc, rfl, rfl⟩
  exact ⟨.chainStep ⟨_, Level.mem_terminals_iff.mpr operator.kind_mem⟩ d dc, rfl, rfl⟩

theorem salvages_unaryFuel (hu : Salvages .unary (unaryFuel fuel))
    (hp : Salvages .primary (primaryFuel fuel)) : Salvages .unary (unaryFuel (fuel + 1)) := by
  refine draws_accept_bind (fun operator => ?_) ?_
  · refine hu.bind ?_
    rintro right _ ⟨d, rfl, rfl⟩
    exact draws_pure ⟨.unary operator d, rfl, by simp [Derivation.yield]⟩
  · refine hp.mono ?_
    rintro e _ ⟨d, rfl, rfl⟩
    exact ⟨.primary d, rfl, rfl⟩

theorem salvages_primaryFuel (ha : Salvages .assignment (assignmentFuel fuel)) :
    Salvages .primary (primaryFuel (fuel + 1)) := by
  refine draws_accept_bind (fun t => ?_) (draws_raiseHere _)
  have hliteral (ht : t.token.kind ∈ literalKinds) :
      (Pure.pure (.literal (literalValue t.token)) : Parse Expr).Draws fun e zs =>
        ∃ d : Derivation .primary, d.tree = e ∧ d.yield = t.token :: zs :=
    draws_pure ⟨.literal ⟨t.token, ht⟩, rfl, rfl⟩
  have hk := t.kind_mem
  simp only [List.mem_cons, List.not_mem_nil, or_false] at hk
  dsimp only
  rcases hk with hk | hk | hk | hk | hk | hk | hk <;> simp only [hk]
  on_goal 6 => exact draws_pure ⟨.identifier ⟨t.token, List.mem_singleton.mpr hk⟩, rfl, rfl⟩
  on_goal 6 =>
    refine ha.bind ?_
    rintro inner _ ⟨d, rfl, rfl⟩
    refine (draws_consume _ _).bind ?_
    rintro _ _ ⟨close, rfl, rfl⟩
    refine draws_pure
      ⟨.grouping ⟨t.token, List.mem_singleton.mpr hk⟩ (.expression d) close, rfl, ?_⟩
    simp [Derivation.yield]
  all_goals simpa [literalValue, hk] using hliteral (by simp [literalKinds, hk])

end

theorem expression_salvages (fuel : Nat) :
    Salvages .assignment (assignmentFuel fuel) ∧
    (∀ l, Salvages (.level l) (levelFuel fuel l)) ∧
    (∀ l, Salvages (.operand l) (operandFuel fuel l)) ∧
    (∀ l, SalvagesChain l (chainFuel fuel l)) ∧
    Salvages .unary (unaryFuel fuel) ∧ Salvages .primary (primaryFuel fuel) := by
  induction fuel with
  | zero =>
    exact ⟨draws_pastEnd, fun _ => draws_pastEnd, fun _ => draws_pastEnd,
      fun _ _ => draws_pastEnd, draws_pastEnd, draws_pastEnd⟩
  | succ fuel ih =>
    obtain ⟨ha, hl, ho, hc, hu, hp⟩ := ih
    exact ⟨salvages_assignmentFuel (hl .equality) ha, fun l => salvages_levelFuel (ho l) (hc l),
      fun l => salvages_operandFuel l hl hu, fun l => salvages_chainFuel (ho l) (hc l),
      salvages_unaryFuel hu hp, salvages_primaryFuel ha⟩

theorem salvages_expression : Salvages .expression expression := by
  have ha : Salvages .assignment expression := fun c a h => (expression_salvages _).1 c a h
  refine Draws.mono ha ?_
  rintro e _ ⟨d, rfl, rfl⟩
  exact ⟨.expression d, rfl, rfl⟩

/-- An expression and the semicolon after it. -/
theorem draws_expression_consume (problem : Problem) (f : Expr → Stmt) :
    (do
      let value ← expression
      let _ ← consume .semicolon problem
      return f value : Parse Stmt).Draws fun s ys =>
        ∃ (d : Derivation .expression) (semicolon : Terminal [.semicolon]),
          f d.tree = s ∧ ys = d.yield ++ [semicolon.token] := by
  refine salvages_expression.bind ?_
  rintro value _ ⟨d, rfl, rfl⟩
  refine (draws_consume _ _).bind ?_
  rintro _ _ ⟨semicolon, rfl, rfl⟩
  exact draws_pure ⟨d, semicolon, rfl, by simp⟩

theorem draws_varDeclaration (word : Terminal [.varWord]) :
    varDeclaration.Draws fun s ys =>
      ∃ d : Derivation .declaration, d.tree = s ∧ d.yield = word.token :: ys := by
  refine (draws_consume _ _).bind ?_
  rintro _ _ ⟨name, rfl, rfl⟩
  refine draws_accept_bind (fun equals => ?_) ?_
  · refine (draws_expression_consume _ fun value => .var name.token (some value)).mono ?_
    rintro _ _ ⟨d, semicolon, rfl, rfl⟩
    exact ⟨.varWith word name equals d semicolon, rfl, rfl⟩
  · refine (draws_consume _ _).bind ?_
    rintro _ _ ⟨semicolon, rfl, rfl⟩
    exact draws_pure ⟨.var word name semicolon, rfl, rfl⟩

/-- What a declaration that may be missing adds to those after it. -/
private theorem exists_cons {first : Option Stmt} {ys : List Token}
    (h : (∃ s, first = some s ∧ ∃ d : Derivation .declaration, d.tree = s ∧ d.yield = ys) ∨
      first = none ∧ ys = []) (rest : Derivation .declarations) {ss : List Stmt}
    (hss : rest.tree = ss) :
    ∃ d : Derivation .declarations, d.tree = first.toList ++ ss ∧ d.yield = ys ++ rest.yield := by
  subst hss
  obtain ⟨_, rfl, d, rfl, rfl⟩ | ⟨rfl, rfl⟩ := h
  · exact ⟨.cons d rest, rfl, rfl⟩
  · exact ⟨rest, rfl, rfl⟩

theorem statement_salvages (fuel : Nat) :
    ((declarationFuel fuel).Draws fun o ys =>
      (∃ s, o = some s ∧ ∃ d : Derivation .declaration, d.tree = s ∧ d.yield = ys) ∨
        o = none ∧ ys = []) ∧
    Salvages .statement (statementFuel fuel) ∧
    (blockFuel fuel).Draws fun ss ys =>
      ∃ (d : Derivation .declarations) (right : Terminal [.rightBrace]),
        d.tree = ss ∧ ys = d.yield ++ [right.token] := by
  induction fuel with
  | zero => exact ⟨draws_pastEnd, draws_pastEnd, draws_pastEnd⟩
  | succ fuel ih =>
    obtain ⟨hd, hs, hb⟩ := ih
    refine ⟨?_, ?_, ?_⟩
    · refine Draws.recovering (declarationBody_moves (statement_moves fuel).2.1) ?_
      refine draws_accept_bind draws_varDeclaration (hs.mono ?_)
      rintro s _ ⟨d, rfl, rfl⟩
      exact ⟨.statement d, rfl, rfl⟩
    · refine draws_accept_bind (fun t => ?_) ?_
      · dsimp only
        split
        · next hprint =>
          refine (draws_expression_consume _ _).mono ?_
          rintro _ _ ⟨d, semicolon, rfl, rfl⟩
          exact ⟨.print ⟨t.token, List.mem_singleton.mpr hprint⟩ d semicolon, rfl, rfl⟩
        · next hprint =>
          have hleft : t.token.kind ∈ [TokenKind.leftBrace] := by simpa [hprint] using t.kind_mem
          refine hb.bind ?_
          rintro _ _ ⟨d, right, rfl, rfl⟩
          exact draws_pure ⟨.block ⟨t.token, hleft⟩ d right, rfl, by simp [Derivation.yield]⟩
      · refine (draws_expression_consume _ _).mono ?_
        rintro _ _ ⟨d, semicolon, rfl, rfl⟩
        exact ⟨.expressionStatement d semicolon, rfl, rfl⟩
    · refine (moves_peek (P := NotEnd)).draws.bind ?_
      rintro t _ rfl
      split
      · refine (draws_consume _ _).bind ?_
        rintro _ _ ⟨right, rfl, rfl⟩
        exact draws_pure ⟨.nil, right, rfl, rfl⟩
      · refine hd.bind fun first ys hfirst => hb.bind ?_
        rintro rest _ ⟨d, right, hd, rfl⟩
        obtain ⟨d', htree, hyield⟩ := exists_cons hfirst d hd
        exact draws_pure ⟨d', right, htree, by simp [hyield]⟩

theorem program_salvages (fuel : Nat) : Salvages .declarations (programFuel fuel) := by
  induction fuel with
  | zero => exact draws_pastEnd
  | succ fuel ih =>
    refine ((moves_peek (P := NotEnd)).bind fun t => moves_pure _).draws.bind ?_
    rintro atEnd _ rfl
    split
    · exact draws_pure ⟨.nil, rfl, rfl⟩
    · refine (statement_salvages fuel).1.bind fun first ys hfirst => ih.bind ?_
      rintro rest _ ⟨d, hd, rfl⟩
      obtain ⟨d', htree, hyield⟩ := exists_cons hfirst d hd
      exact draws_pure ⟨d', htree, by simp [hyield]⟩

/-- However many syntax errors a list of tokens has, its program is the tree of a derivation, and
the tokens that this derives are some of the list, in order. Every statement, nested ones included,
is one that the grammar derives, and the tokens that the tree shows are those of the derivation. -/
theorem parse_salvages (ts : List Token) (hend : ∃ t ∈ ts, t.kind = .eof) :
    ∃ d : Derivation .declarations, (parse ts).result = .ok d.tree ∧ d.yield.Sublist ts ∧
      List.Forall₂ Piece.Fits (Stmt.allPieces d.tree) d.yield ∧
      ∀ s ∈ Stmt.allNested d.tree, s.Grammatical ∧ ∃ d' : Derivation .declaration, d'.tree = s := by
  obtain ⟨ss, hss⟩ := program_ok (c := ⟨0, ts⟩) hend
  obtain ⟨used, _, hahead, hsublist, d, rfl, rfl⟩ := program_salvages _ ⟨0, ts⟩ ss hss
  have hused : used.Sublist ts := by
    change ts = _ at hahead
    rw [hahead]
    exact List.sublist_append_left _ _
  exact ⟨d, hss, hsublist.trans hused, d.shows, d.fits⟩

/-- The tokens of `!a = b; { nil nil; print nil; }`. -/
private def badTarget : List Token :=
  [⟨.bang, "!", .nil, 1⟩, ⟨.identifier, "a", .nil, 1⟩, ⟨.equal, "=", .nil, 1⟩,
    ⟨.identifier, "b", .nil, 1⟩, ⟨.semicolon, ";", .nil, 1⟩, ⟨.leftBrace, "\x7b", .nil, 1⟩,
    ⟨.nilWord, "nil", .nil, 1⟩, ⟨.nilWord, "nil", .nil, 1⟩, ⟨.semicolon, ";", .nil, 1⟩,
    ⟨.printWord, "print", .nil, 1⟩, ⟨.nilWord, "nil", .nil, 1⟩, ⟨.semicolon, ";", .nil, 1⟩,
    ⟨.rightBrace, "\x7d", .nil, 1⟩, ⟨.eof, "", .nil, 1⟩]

theorem badTarget_salvaged :
    (∃ t ∈ badTarget, t.kind = .eof) ∧ (parse badTarget).complaints.length = 2 ∧
    ∃ d : Derivation .declarations, (parse badTarget).result = .ok d.tree ∧
      d.yield.Sublist badTarget ∧ List.Forall₂ Piece.Fits (Stmt.allPieces d.tree) d.yield ∧
      ∀ s ∈ Stmt.allNested d.tree, s.Grammatical ∧ ∃ d' : Derivation .declaration, d'.tree = s := by
  have hend : ∃ t ∈ badTarget, t.kind = .eof := by decide
  exact ⟨hend, rfl, parse_salvages badTarget hend⟩

end LoxLang.Grammar
