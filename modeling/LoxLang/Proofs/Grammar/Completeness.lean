import LoxLang.Proofs.Grammar.Derivation
import LoxLang.Proofs.Grammar.Fuel

/-!
What a symbol derives, its parser reads without complaint, up to where the derivation ends, provided
that the next token is none that could go on with it.
-/
namespace LoxLang.Grammar

open Parse

variable {α β : Type}

/-- With enough fuel the parser takes exactly `w` in front of `r`, results in `a` and complains of
nothing. -/
def Reads (p : Nat → Parse α) (w r : List Token) (a : α) : Prop :=
  ∃ n, ∀ fuel, n ≤ fuel → ∀ pos, p fuel ⟨pos, w ++ r⟩ = ⟨.ok a, ⟨pos + w.length, r⟩, []⟩

/-- The text goes on with a token of none of the kinds. -/
def Stops (kinds : List TokenKind) (r : List Token) : Prop :=
  ∃ t rest, r = t :: rest ∧ t.kind ∉ kinds

def HasEnd (r : List Token) : Prop :=
  ∃ t ∈ r, t.kind = .eof

namespace Parse

theorem bind_of_silent {p : Parse α} {f : α → Parse β} {c c' : Cursor} {a : α}
    (h : p c = ⟨.ok a, c', []⟩) : (p >>= f) c = f a c' := by
  rw [bind_of_ok (a := a) (by rw [h]), h]
  rfl

theorem pure_apply (a : α) (c : Cursor) : (Pure.pure a : Parse α) c = ⟨.ok a, c, []⟩ :=
  rfl

theorem consume_of_kind {kind : TokenKind} {t : Token} (h : t.kind = kind) (hend : kind ≠ .eof)
    (problem : Problem) (pos : Nat) (rest : List Token) :
    consume kind problem ⟨pos, t :: rest⟩ = ⟨.ok t, ⟨pos + 1, rest⟩, []⟩ :=
  accept_bind_of_mem (h ▸ hend) (by simp [h]) pos rest

theorem atEnd_apply (t : Token) (pos : Nat) (rest : List Token) :
    atEnd ⟨pos, t :: rest⟩ = ⟨.ok (decide (t.kind = .eof)), ⟨pos, t :: rest⟩, []⟩ :=
  rfl

theorem accept_bind_of_stops {kinds : List TokenKind} {g : Option Token → Parse β} {r : List Token}
    (h : Stops kinds r) (pos : Nat) : (accept kinds >>= g) ⟨pos, r⟩ = g none ⟨pos, r⟩ := by
  obtain ⟨t, rest, rfl, ht⟩ := h
  exact accept_bind_of_not (fun hk => ht hk.2) pos rest

end Parse

theorem Stops.mono {kinds kinds' : List TokenKind} {r : List Token} (h : Stops kinds r)
    (hsub : kinds' ⊆ kinds) : Stops kinds' r := by
  obtain ⟨t, rest, hr, ht⟩ := h
  exact ⟨t, rest, hr, fun hk => ht (hsub hk)⟩

/-- The operators of the levels tighter than a level. -/
def Level.inner : Level → List TokenKind
  | .equality => Level.comparison.operators ++ (Level.term.operators ++ Level.factor.operators)
  | .comparison => Level.term.operators ++ Level.factor.operators
  | .term => Level.factor.operators
  | .factor => []

/-- The operators of a level and of the tighter ones. -/
def Level.loops (l : Level) : List TokenKind :=
  l.operators ++ l.inner

theorem Level.loops_of_tighter {l l' : Level} (h : l.tighter = some l') : l'.loops = l.inner := by
  cases l <;> cases h <;> rfl

theorem Level.not_mem_inner {l : Level} {kind : TokenKind} (h : kind ∈ l.operators) :
    kind ∉ l.inner := by
  revert h
  cases l <;> cases kind <;> decide

theorem Level.not_eof_mem_operators (l : Level) : .eof ∉ l.operators := by
  cases l <;> decide

/-! The readers, one step for each alternative of a rule. -/

private theorem exists_succ {n fuel : Nat} (h : n + 1 ≤ fuel) : ∃ m, fuel = m + 1 ∧ n ≤ m :=
  ⟨fuel - 1, by omega, by omega⟩

theorem reads_literal (t : Token) (ht : t.kind ∈ literalKinds) (r : List Token) :
    Reads primaryFuel [t] r (.literal (literalValue t)) := by
  refine ⟨1, fun fuel hf pos => ?_⟩
  obtain ⟨fuel, rfl, -⟩ := exists_succ hf
  have hend : t.kind ≠ .eof := notEnd_of_mem (by decide) t ht
  simp only [literalKinds, List.mem_cons, List.not_mem_nil, or_false] at ht
  refine (accept_bind_of_mem hend ?_ pos r).trans ?_
  · rcases ht with h | h | h | h | h <;> simp [h]
  · rcases ht with h | h | h | h | h <;> simp only [h, literalValue, pure_apply, List.length_singleton]

theorem reads_identifier (t : Token) (ht : t.kind = .identifier) (r : List Token) :
    Reads primaryFuel [t] r (.variable t) := by
  refine ⟨1, fun fuel hf pos => ?_⟩
  obtain ⟨fuel, rfl, -⟩ := exists_succ hf
  refine (accept_bind_of_mem (by simp [ht]) (by simp [ht]) pos r).trans ?_
  simp only [ht, pure_apply, List.length_singleton]

theorem reads_grouping {left right : Token} {w r : List Token} {e : Expr}
    (hl : left.kind = .leftParen) (hr : right.kind = .rightParen)
    (h : Reads assignmentFuel w (right :: r) e) :
    Reads primaryFuel (left :: (w ++ [right])) r (.grouping e) := by
  obtain ⟨n, hn⟩ := h
  refine ⟨n + 1, fun fuel hf pos => ?_⟩
  obtain ⟨fuel, rfl, hfuel⟩ := exists_succ hf
  simp only [List.cons_append, List.append_assoc, List.nil_append]
  refine (accept_bind_of_mem (by simp [hl]) (by simp [hl]) pos _).trans ?_
  simp only [hl]
  refine (bind_of_silent (hn fuel hfuel (pos + 1))).trans ?_
  refine (bind_of_silent (consume_of_kind hr (by decide) _ _ _)).trans ?_
  rw [pure_apply, List.length_cons, List.length_append, List.length_singleton]
  congr 2
  omega

theorem reads_unary {operator : Token} {w r : List Token} {e : Expr}
    (ho : operator.kind ∈ [TokenKind.bang, .minus]) (h : Reads unaryFuel w r e) :
    Reads unaryFuel (operator :: w) r (.unary operator e) := by
  obtain ⟨n, hn⟩ := h
  refine ⟨n + 1, fun fuel hf pos => ?_⟩
  obtain ⟨fuel, rfl, hfuel⟩ := exists_succ hf
  rw [List.cons_append]
  refine (accept_bind_of_mem (notEnd_of_mem (by decide) _ ho) ho pos _).trans ?_
  refine (bind_of_silent (hn fuel hfuel (pos + 1))).trans ?_
  rw [pure_apply, List.length_cons, Nat.add_assoc, Nat.add_comm 1]

theorem reads_primary {t : Token} {w r : List Token} {e : Expr}
    (ht : t.kind ∉ [TokenKind.bang, .minus]) (h : Reads primaryFuel (t :: w) r e) :
    Reads unaryFuel (t :: w) r e := by
  obtain ⟨n, hn⟩ := h
  refine ⟨n + 1, fun fuel hf pos => ?_⟩
  obtain ⟨fuel, rfl, hfuel⟩ := exists_succ hf
  exact (accept_bind_of_not (fun hk => ht hk.2) pos _).trans (hn fuel hfuel pos)

theorem reads_tightest {l : Level} (hl : l.tighter = none) {w r : List Token} {e : Expr}
    (h : Reads unaryFuel w r e) : Reads (operandFuel · l) w r e := by
  obtain ⟨n, hn⟩ := h
  refine ⟨n + 1, fun fuel hf pos => ?_⟩
  obtain ⟨fuel, rfl, hfuel⟩ := exists_succ hf
  simp only [operandFuel, hl]
  exact hn fuel hfuel pos

theorem reads_tighter {l l' : Level} (hl : l.tighter = some l') {w r : List Token} {e : Expr}
    (h : Reads (levelFuel · l') w r e) : Reads (operandFuel · l) w r e := by
  obtain ⟨n, hn⟩ := h
  refine ⟨n + 1, fun fuel hf pos => ?_⟩
  obtain ⟨fuel, rfl, hfuel⟩ := exists_succ hf
  simp only [operandFuel, hl]
  exact hn fuel hfuel pos

theorem reads_chainEnd {l : Level} {r : List Token} (h : Stops l.operators r) (left : Expr) :
    Reads (chainFuel · l left) [] r left := by
  refine ⟨1, fun fuel hf pos => ?_⟩
  obtain ⟨fuel, rfl, -⟩ := exists_succ hf
  exact accept_bind_of_stops h pos

theorem reads_chainStep {l : Level} {operator : Token} (ho : operator.kind ∈ l.operators)
    {w v r : List Token} {left right e : Expr} (hw : Reads (operandFuel · l) w (v ++ r) right)
    (hv : Reads (chainFuel · l (.binary left operator right)) v r e) :
    Reads (chainFuel · l left) (operator :: (w ++ v)) r e := by
  obtain ⟨m, hm⟩ := hw
  obtain ⟨n, hn⟩ := hv
  refine ⟨max m n + 1, fun fuel hf pos => ?_⟩
  obtain ⟨fuel, rfl, hfuel⟩ := exists_succ hf
  rw [List.cons_append, List.append_assoc]
  refine (accept_bind_of_mem (notEnd_of_mem l.not_eof_mem_operators _ ho) ho pos _).trans ?_
  refine (bind_of_silent (hm fuel (by omega) (pos + 1))).trans ?_
  refine (hn fuel (by omega) _).trans ?_
  rw [List.length_cons, List.length_append]
  congr 2
  omega

theorem reads_level {l : Level} {w v r : List Token} {first e : Expr}
    (hw : Reads (operandFuel · l) w (v ++ r) first) (hv : Reads (chainFuel · l first) v r e) :
    Reads (levelFuel · l) (w ++ v) r e := by
  obtain ⟨m, hm⟩ := hw
  obtain ⟨n, hn⟩ := hv
  refine ⟨max m n + 1, fun fuel hf pos => ?_⟩
  obtain ⟨fuel, rfl, hfuel⟩ := exists_succ hf
  rw [List.append_assoc]
  refine (bind_of_silent (hm fuel (by omega) pos)).trans ?_
  refine (hn fuel (by omega) _).trans ?_
  rw [List.length_append, Nat.add_assoc]

theorem reads_equality {w r : List Token} {e : Expr} (hr : Stops [.equal] r)
    (h : Reads (levelFuel · .equality) w r e) : Reads assignmentFuel w r e := by
  obtain ⟨n, hn⟩ := h
  refine ⟨n + 1, fun fuel hf pos => ?_⟩
  obtain ⟨fuel, rfl, hfuel⟩ := exists_succ hf
  exact (bind_of_silent (hn fuel hfuel pos)).trans (accept_bind_of_stops hr _)

theorem reads_assign {name equals : Token} (he : equals.kind = .equal) {w r : List Token} {e : Expr}
    (hn : Reads (levelFuel · .equality) [name] (equals :: (w ++ r)) (.variable name))
    (h : Reads assignmentFuel w r e) :
    Reads assignmentFuel (name :: equals :: w) r (.assign name e) := by
  obtain ⟨m, hm⟩ := hn
  obtain ⟨n, hn⟩ := h
  refine ⟨max m n + 1, fun fuel hf pos => ?_⟩
  obtain ⟨fuel, rfl, hfuel⟩ := exists_succ hf
  refine (bind_of_silent (hm fuel (by omega) pos)).trans ?_
  refine (accept_bind_of_mem (by simp [he]) (by simp [he]) _ _).trans ?_
  refine (bind_of_silent rfl).trans ?_
  refine (bind_of_silent (hn fuel (by omega) _)).trans ?_
  simp only [pure_apply, List.length_cons, List.length_nil]
  congr 2
  omega

/-- What is read as an operand of a level is read at the level when no operator of it follows. -/
theorem reads_level_of_operand {l : Level} {w r : List Token} {e : Expr} (hr : Stops l.operators r)
    (h : Reads (operandFuel · l) w r e) : Reads (levelFuel · l) w r e := by
  have hl := reads_level (v := []) h (reads_chainEnd hr e)
  rwa [List.append_nil] at hl

/-- A name in front of no operator is read as a variable at the loosest level too. -/
theorem reads_level_identifier {t : Token} (ht : t.kind = .identifier) {r : List Token}
    (hr : Stops Level.equality.loops r) : Reads (levelFuel · .equality) [t] r (.variable t) := by
  have hu : Reads unaryFuel [t] r (.variable t) :=
    reads_primary (by simp [ht]) (reads_identifier t ht r)
  have hfactor := reads_level_of_operand (hr.mono (by decide))
    (reads_tightest (l := .factor) rfl hu)
  have hterm := reads_level_of_operand (hr.mono (by decide))
    (reads_tighter (l := .term) rfl hfactor)
  have hcomparison := reads_level_of_operand (hr.mono (by decide))
    (reads_tighter (l := .comparison) rfl hterm)
  exact reads_level_of_operand (hr.mono (by decide)) (reads_tighter (l := .equality) rfl hcomparison)

/-- What the parser of an expression does when it is called from outside. -/
theorem expression_of_reads {w r : List Token} {e : Expr} (h : Reads assignmentFuel w r e)
    (hr : HasEnd r) (pos : Nat) :
    expression ⟨pos, w ++ r⟩ = ⟨.ok e, ⟨pos + w.length, r⟩, []⟩ := by
  obtain ⟨n, hn⟩ := h
  have hread := hn n (Nat.le_refl n) pos
  have hend : ∃ t ∈ (Cursor.mk pos (w ++ r)).ahead, t.kind = .eof := by
    obtain ⟨t, ht, hk⟩ := hr
    exact ⟨t, List.mem_append_right w ht, hk⟩
  have hne := (sated_expression ⟨pos, w ++ r⟩).result_ne expression_moves_notEnd hend
  rw [← hread]
  exact fueled_eq (p := assignmentFuel) (fun m => (expression_extendedBy m).1) hne
    (by simp [hread])

/-- What follows a derived text is no end of the list. -/
theorem HasEnd.append {r : List Token} (h : HasEnd r) (w : List Token) : HasEnd (w ++ r) := by
  obtain ⟨t, ht, hk⟩ := h
  exact ⟨t, List.mem_append_right w ht, hk⟩

theorem HasEnd.cons {r : List Token} (h : HasEnd r) (t : Token) : HasEnd (t :: r) :=
  h.append [t]

theorem reads_printStatement {word semicolon : Token} (hw : word.kind = .printWord)
    (hs : semicolon.kind = .semicolon) {w r : List Token} {e : Expr} (hr : HasEnd r)
    (h : Reads assignmentFuel w (semicolon :: r) e) :
    Reads statementFuel (word :: (w ++ [semicolon])) r (.print e) := by
  refine ⟨1, fun fuel hf pos => ?_⟩
  obtain ⟨fuel, rfl, -⟩ := exists_succ hf
  simp only [List.cons_append, List.append_assoc, List.nil_append]
  refine (accept_bind_of_mem (by simp [hw]) (by simp [hw]) pos _).trans ?_
  dsimp only
  rw [if_pos hw]
  refine (bind_of_silent (expression_of_reads h (hr.cons _) (pos + 1))).trans ?_
  refine (bind_of_silent (consume_of_kind hs (by decide) _ _ _)).trans ?_
  rw [pure_apply, List.length_cons, List.length_append, List.length_singleton]
  congr 2
  omega

theorem reads_expressionStatement {t semicolon : Token} (ht : t.kind ∉ [TokenKind.printWord, .leftBrace])
    (hs : semicolon.kind = .semicolon) {w r : List Token} {e : Expr} (hr : HasEnd r)
    (h : Reads assignmentFuel (t :: w) (semicolon :: r) e) :
    Reads statementFuel (t :: (w ++ [semicolon])) r (.expression e) := by
  refine ⟨1, fun fuel hf pos => ?_⟩
  obtain ⟨fuel, rfl, -⟩ := exists_succ hf
  simp only [List.cons_append, List.append_assoc, List.nil_append]
  refine (accept_bind_of_not (fun hk => ht hk.2) pos _).trans ?_
  refine (bind_of_silent (expression_of_reads h (hr.cons _) pos)).trans ?_
  refine (bind_of_silent (consume_of_kind hs (by decide) _ _ _)).trans ?_
  rw [pure_apply, List.length_cons, List.length_cons, List.length_append, List.length_singleton]
  congr 2

theorem reads_block {left : Token} (hl : left.kind = .leftBrace) {w r : List Token} {body : List Stmt}
    (h : Reads blockFuel w r body) : Reads statementFuel (left :: w) r (.block body) := by
  obtain ⟨n, hn⟩ := h
  refine ⟨n + 1, fun fuel hf pos => ?_⟩
  obtain ⟨fuel, rfl, hfuel⟩ := exists_succ hf
  rw [List.cons_append]
  refine (accept_bind_of_mem (by simp [hl]) (by simp [hl]) pos _).trans ?_
  dsimp only
  rw [if_neg (by simp [hl])]
  refine (bind_of_silent (hn fuel hfuel (pos + 1))).trans ?_
  rw [pure_apply, List.length_cons, Nat.add_assoc, Nat.add_comm 1]

/-- Nothing has to be recovered from what was read without complaint. -/
theorem recovering_of_silent {p : Parse α} {c c' : Cursor} {a : α} (h : p c = ⟨.ok a, c', []⟩) :
    recovering p c = ⟨.ok (some a), c', []⟩ := by
  rw [recovering_of_ok (a := a) (by rw [h]), h]

theorem reads_statement {t : Token} (ht : t.kind ≠ .varWord) {w r : List Token} {s : Stmt}
    (h : Reads statementFuel (t :: w) r s) : Reads declarationFuel (t :: w) r (some s) := by
  obtain ⟨n, hn⟩ := h
  refine ⟨n + 1, fun fuel hf pos => ?_⟩
  obtain ⟨fuel, rfl, hfuel⟩ := exists_succ hf
  refine recovering_of_silent ?_
  refine (accept_bind_of_not (fun hk => ht (List.mem_singleton.mp hk.2)) pos _).trans ?_
  exact hn fuel hfuel pos

theorem reads_var {word name semicolon : Token} (hw : word.kind = .varWord)
    (hn : name.kind = .identifier) (hs : semicolon.kind = .semicolon) (r : List Token) :
    Reads declarationFuel [word, name, semicolon] r (some (.var name none)) := by
  refine ⟨1, fun fuel hf pos => ?_⟩
  obtain ⟨fuel, rfl, -⟩ := exists_succ hf
  refine recovering_of_silent ?_
  refine (accept_bind_of_mem (by simp [hw]) (by simp [hw]) pos _).trans ?_
  refine (bind_of_silent (consume_of_kind hn (by decide) _ _ _)).trans ?_
  refine (accept_bind_of_not (by simp [hs]) _ _).trans ?_
  exact (bind_of_silent (consume_of_kind hs (by decide) _ _ _)).trans (pure_apply _ _)

theorem reads_varWith {word name equals semicolon : Token} (hw : word.kind = .varWord)
    (hn : name.kind = .identifier) (he : equals.kind = .equal) (hs : semicolon.kind = .semicolon)
    {w r : List Token} {e : Expr} (hr : HasEnd r) (h : Reads assignmentFuel w (semicolon :: r) e) :
    Reads declarationFuel (word :: name :: equals :: (w ++ [semicolon])) r
      (some (.var name (some e))) := by
  refine ⟨1, fun fuel hf pos => ?_⟩
  obtain ⟨fuel, rfl, -⟩ := exists_succ hf
  simp only [List.cons_append, List.append_assoc, List.nil_append]
  refine recovering_of_silent ?_
  refine (accept_bind_of_mem (by simp [hw]) (by simp [hw]) pos _).trans ?_
  refine (bind_of_silent (consume_of_kind hn (by decide) _ _ _)).trans ?_
  refine (accept_bind_of_mem (by simp [he]) (by simp [he]) _ _).trans ?_
  refine (bind_of_silent (expression_of_reads h (hr.cons _) _)).trans ?_
  refine (bind_of_silent (consume_of_kind hs (by decide) _ _ _)).trans ?_
  rw [pure_apply]
  simp only [List.length_cons, List.length_append, List.length_nil]
  congr 2
  omega

theorem reads_blockEnd {right : Token} (hr : right.kind = .rightBrace) (r : List Token) :
    Reads blockFuel [right] r [] := by
  refine ⟨1, fun fuel hf pos => ?_⟩
  obtain ⟨fuel, rfl, -⟩ := exists_succ hf
  refine (bind_of_silent (a := right) rfl).trans ?_
  rw [if_pos (.inl hr)]
  exact (bind_of_silent (consume_of_kind hr (by decide) _ _ _)).trans (pure_apply _ _)

theorem reads_blockStep {t : Token} (ht : t.kind ∉ [TokenKind.rightBrace, .eof]) {w v r : List Token}
    {first : Stmt} {rest : List Stmt} (hw : Reads declarationFuel (t :: w) (v ++ r) (some first))
    (hv : Reads blockFuel v r rest) : Reads blockFuel (t :: w ++ v) r (first :: rest) := by
  obtain ⟨m, hm⟩ := hw
  obtain ⟨n, hn⟩ := hv
  refine ⟨max m n + 1, fun fuel hf pos => ?_⟩
  obtain ⟨fuel, rfl, hfuel⟩ := exists_succ hf
  rw [List.append_assoc]
  refine (bind_of_silent (a := t) rfl).trans ?_
  rw [if_neg (by simpa using ht)]
  refine (bind_of_silent (hm fuel (by omega) pos)).trans ?_
  refine (bind_of_silent (hn fuel (by omega) _)).trans ?_
  rw [pure_apply, List.length_append, Nat.add_assoc]
  rfl

theorem reads_programEnd {e : Token} (he : e.kind = .eof) : Reads programFuel [] [e] [] := by
  refine ⟨1, fun fuel hf pos => ?_⟩
  obtain ⟨fuel, rfl, -⟩ := exists_succ hf
  refine (bind_of_silent (atEnd_apply e pos [])).trans ?_
  rw [if_pos (by simp [he]), pure_apply]
  rfl

theorem reads_programStep {t : Token} (ht : t.kind ≠ .eof) {w v r : List Token}
    {first : Stmt} {rest : List Stmt} (hw : Reads declarationFuel (t :: w) (v ++ r) (some first))
    (hv : Reads programFuel v r rest) : Reads programFuel (t :: w ++ v) r (first :: rest) := by
  obtain ⟨m, hm⟩ := hw
  obtain ⟨n, hn⟩ := hv
  refine ⟨max m n + 1, fun fuel hf pos => ?_⟩
  obtain ⟨fuel, rfl, hfuel⟩ := exists_succ hf
  rw [List.append_assoc]
  refine (bind_of_silent (atEnd_apply t pos _)).trans ?_
  rw [if_neg (by simp [ht])]
  refine (bind_of_silent (hm fuel (by omega) pos)).trans ?_
  refine (bind_of_silent (hn fuel (by omega) _)).trans ?_
  rw [pure_apply, List.length_append, Nat.add_assoc]
  rfl

/-- The parser of the symbol reads the derivation in front of whatever cannot go on with it. -/
def Derivation.Read : {s : Symbol} → Derivation s → Prop
  | .declarations, d =>
    (∀ right : Token, right.kind = .rightBrace → ∀ r, HasEnd r →
      Reads blockFuel (d.yield ++ [right]) r d.tree) ∧
    ∀ e : Token, e.kind = .eof → Reads programFuel d.yield [e] d.tree
  | .declaration, d => ∀ r, HasEnd r → Reads declarationFuel d.yield r (some d.tree)
  | .statement, d => ∀ r, HasEnd r → Reads statementFuel d.yield r d.tree
  | .expression, d | .assignment, d =>
    ∀ r, Stops (.equal :: Level.equality.loops) r → Reads assignmentFuel d.yield r d.tree
  | .level l, d => ∀ r, Stops l.loops r → Reads (levelFuel · l) d.yield r d.tree
  | .operand l, d => ∀ r, Stops l.inner r → Reads (operandFuel · l) d.yield r d.tree
  | .chain l, d => ∀ r, Stops l.loops r → ∀ left, Reads (chainFuel · l left) d.yield r (d.tree left)
  | .unary, d => ∀ r, Reads unaryFuel d.yield r d.tree
  | .primary, d => ∀ r, Reads primaryFuel d.yield r d.tree

namespace Derivation

private theorem stops_semicolon (t : Terminal [.semicolon]) (r : List Token) :
    Stops (.equal :: Level.equality.loops) (t.token :: r) :=
  ⟨_, _, rfl, by rw [List.mem_singleton.mp t.kind_mem]; decide⟩

/-- Behind an operand of a level stands nothing that a tighter level could take. -/
theorem stops_chain {l : Level} (d : Derivation (.chain l)) {r : List Token} (hr : Stops l.loops r) :
    Stops l.inner (d.yield ++ r) := by
  cases d with
  | chainEnd => exact hr.mono fun _ => List.mem_append_right _
  | chainStep operator right rest =>
    exact ⟨operator.token, _, rfl, Level.not_mem_inner (Level.mem_terminals_iff.mp operator.kind_mem)⟩

theorem read {s : Symbol} (d : Derivation s) : d.Read := by
  induction d with
  | nil => exact ⟨fun right hr r _ => reads_blockEnd hr r, fun e he => reads_programEnd he⟩
  | cons first rest hf hr =>
    obtain ⟨t, w, hw, ht⟩ := first.starts (by simp [Symbol.first])
    refine ⟨fun right hright r hend => ?_, fun e he => ?_⟩
    · have h := hf ((rest.yield ++ [right]) ++ r) (hend.append _)
      rw [hw] at h
      simp only [yield, hw, List.append_assoc]
      refine reads_blockStep ?_ h (hr.1 right hright r hend)
      revert ht
      cases t.kind <;> decide
    · have h := hf (rest.yield ++ [e]) (HasEnd.append ⟨e, by simp, he⟩ _)
      rw [hw] at h
      simp only [yield, hw]
      refine reads_programStep ?_ h (hr.2 e he)
      revert ht
      cases t.kind <;> decide
  | var word name semicolon =>
    exact fun r _ => reads_var (List.mem_singleton.mp word.kind_mem)
      (List.mem_singleton.mp name.kind_mem) (List.mem_singleton.mp semicolon.kind_mem) r
  | varWith word name equals value semicolon hv =>
    exact fun r hend => reads_varWith (List.mem_singleton.mp word.kind_mem)
      (List.mem_singleton.mp name.kind_mem) (List.mem_singleton.mp equals.kind_mem)
      (List.mem_singleton.mp semicolon.kind_mem) hend (hv _ (stops_semicolon semicolon r))
  | statement s hs =>
    obtain ⟨t, w, hw, ht⟩ := s.starts (by simp [Symbol.first])
    intro r hend
    have h := hs r hend
    simp only [yield]
    rw [hw] at h ⊢
    refine reads_statement ?_ h
    revert ht
    cases t.kind <;> decide
  | print word value semicolon hv =>
    exact fun r hend => reads_printStatement (List.mem_singleton.mp word.kind_mem)
      (List.mem_singleton.mp semicolon.kind_mem) hend (hv _ (stops_semicolon semicolon r))
  | block left body right hb =>
    exact fun r hend => reads_block (List.mem_singleton.mp left.kind_mem)
      (hb.1 right.token (List.mem_singleton.mp right.kind_mem) r hend)
  | expressionStatement value semicolon hv =>
    obtain ⟨t, w, hw, ht⟩ := value.starts (by simp [Symbol.first])
    intro r hend
    have h := hv _ (stops_semicolon semicolon r)
    simp only [yield]
    rw [hw] at h ⊢
    refine reads_expressionStatement ?_ (List.mem_singleton.mp semicolon.kind_mem) hend h
    revert ht
    cases t.kind <;> decide
  | expression a ha => exact ha
  | assign name equals value hv =>
    intro r hr
    have he := List.mem_singleton.mp equals.kind_mem
    refine reads_assign he (reads_level_identifier (List.mem_singleton.mp name.kind_mem) ?_) (hv r hr)
    exact ⟨_, _, rfl, by rw [he]; decide⟩
  | equality e he =>
    exact fun r hr => reads_equality (hr.mono (by simp)) (he r (hr.mono (by simp)))
  | level first rest hf hr =>
    exact fun r hs => reads_level (hf _ (rest.stops_chain hs)) (hr r hs _)
  | tighter h e he =>
    have htighter := Level.tighter_eq_some_iff.mpr h
    exact fun r hr => reads_tighter htighter (he r (Level.loops_of_tighter htighter ▸ hr))
  | tightest e he => exact fun r _ => reads_tightest rfl (he r)
  | chainEnd =>
    exact fun r hr left => reads_chainEnd (hr.mono fun _ => List.mem_append_left _) left
  | chainStep operator right rest hright hrest =>
    exact fun r hr left => reads_chainStep (Level.mem_terminals_iff.mp operator.kind_mem)
      (hright _ (rest.stops_chain hr)) (hrest r hr _)
  | unary operator right hr => exact fun r => reads_unary operator.kind_mem (hr r)
  | primary e he =>
    obtain ⟨t, w, hw, ht⟩ := e.starts (by simp [Symbol.first])
    intro r
    have h := he r
    simp only [yield]
    rw [hw] at h ⊢
    refine reads_primary ?_ h
    revert ht
    cases t.kind <;> decide
  | literal t => exact fun r => reads_literal t.token t.kind_mem r
  | identifier t =>
    exact fun r => reads_identifier t.token (List.mem_singleton.mp t.kind_mem) r
  | grouping left inner right hi =>
    have hr := List.mem_singleton.mp right.kind_mem
    refine fun r => reads_grouping (List.mem_singleton.mp left.kind_mem) hr (hi _ ?_)
    exact ⟨_, _, rfl, by rw [hr]; decide⟩

end Derivation

end LoxLang.Grammar
