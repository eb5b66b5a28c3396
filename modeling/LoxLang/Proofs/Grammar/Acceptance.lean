import LoxLang.Proofs.Grammar.Unambiguity

/-!
The parser of programs accepts what the grammar derives and nothing else. What a parser takes without
complaint is derived from its symbol, and the tree that it builds is the tree of the derivation.
-/
namespace LoxLang.Grammar

open Parse

variable {α β : Type}

namespace Parse

variable {c c' : Cursor}

theorem bind_silent {p : Parse α} {f : α → Parse β} {b : β} (h : (p >>= f) c = ⟨.ok b, c', []⟩) :
    ∃ a m, p c = ⟨.ok a, m, []⟩ ∧ f a m = ⟨.ok b, c', []⟩ := by
  cases hr : (p c).result with
  | error stop =>
    rw [bind_of_error hr] at h
    cases h
  | ok a =>
    rw [bind_of_ok hr] at h
    obtain ⟨hresult, hcursor, hcomplaints⟩ := Outcome.mk.inj h
    obtain ⟨hp, hf⟩ := List.append_eq_nil_iff.mp hcomplaints
    refine ⟨a, (p c).cursor, ?_, ?_⟩
    · rw [← hr, ← hp]
    · rw [← hresult, ← hcursor, ← hf]

theorem pure_silent {a b : α} (h : (Pure.pure a : Parse α) c = ⟨.ok b, c', []⟩) : a = b ∧ c = c' := by
  cases h
  exact ⟨rfl, rfl⟩

theorem accept_bind_silent {kinds : List TokenKind} {g : Option Token → Parse β} {b : β}
    (h : (accept kinds >>= g) c = ⟨.ok b, c', []⟩) :
    (∃ t rest, c.ahead = t :: rest ∧ t.kind ∈ kinds ∧ g (some t) ⟨c.pos + 1, rest⟩ = ⟨.ok b, c', []⟩) ∨
      g none c = ⟨.ok b, c', []⟩ := by
  obtain ⟨pos, _ | ⟨t, rest⟩⟩ := c
  · cases h
  by_cases ht : t.kind ≠ .eof ∧ t.kind ∈ kinds
  · rw [accept_bind_of_mem ht.1 ht.2] at h
    exact .inl ⟨t, rest, rfl, ht.2, h⟩
  · rw [accept_bind_of_not ht] at h
    exact .inr h

theorem raiseHere_not_silent {problem : Problem} {a : α} :
    (raiseHere problem : Parse α) c ≠ ⟨.ok a, c', []⟩ := by
  obtain ⟨pos, _ | ⟨t, rest⟩⟩ := c <;> rintro ⟨⟩

theorem consume_silent {kind : TokenKind} {problem : Problem} {t : Token}
    (h : consume kind problem c = ⟨.ok t, c', []⟩) :
    ∃ s : Terminal [kind], s.token = t ∧ c.ahead = s.token :: c'.ahead := by
  rcases accept_bind_silent h with ⟨t', rest, hc, hk, hg⟩ | hg
  · obtain ⟨rfl, rfl⟩ := pure_silent hg
    exact ⟨⟨t', hk⟩, rfl, hc⟩
  · exact absurd hg raiseHere_not_silent

/-- What was read without complaint needed no recovery. -/
theorem recovering_silent {P : Token → Prop} {n : Nat} {p : Parse α} (hp : p.Moves P n) {a : Option α}
    (h : recovering p c = ⟨.ok a, c', []⟩) : ∃ b, a = some b ∧ p c = ⟨.ok b, c', []⟩ := by
  cases hr : (p c).result with
  | ok b =>
    rw [recovering_of_ok hr] at h
    obtain ⟨hresult, hcursor, hcomplaints⟩ := Outcome.mk.inj h
    refine ⟨b, by cases hresult; rfl, ?_⟩
    rw [← hr, ← hcursor, ← hcomplaints]
  | error stop =>
    cases stop with
    | pastEnd =>
      rw [recovering_of_pastEnd hr] at h
      cases h
    | raised b =>
      obtain ⟨-, -, earlier, he⟩ := (hp c).raised b hr
      rw [recovering_of_raised hr] at h
      have hnil := (Outcome.mk.inj h).2.2
      simp [he] at hnil

end Parse

/-- A derivation whose tree is a variable is one of that name alone. -/
def Derivation.NamesOnly : {s : Symbol} → Derivation s → Prop
  | .declarations, _ | .declaration, _ | .statement, _ => True
  | .chain _, d => ∀ left name, d.tree left = .variable name → left = .variable name ∧ d.yield = []
  | .expression, d | .assignment, d | .level _, d | .operand _, d | .unary, d | .primary, d =>
    ∀ name, d.tree = .variable name → ∃ t : Terminal [.identifier], t.token = name ∧ d.yield = [name]

theorem Derivation.namesOnly {s : Symbol} (d : Derivation s) : d.NamesOnly := by
  induction d with
  | nil | cons | var | varWith | statement | print | block | expressionStatement => trivial
  | expression a ha => exact ha
  | assign => exact fun name h => by cases h
  | equality e he => exact he
  | level first rest hf hr =>
    intro name h
    obtain ⟨hfirst, hrest⟩ := hr _ name h
    obtain ⟨t, ht, hy⟩ := hf name hfirst
    exact ⟨t, ht, by rw [yield, hy, hrest, List.append_nil]⟩
  | tighter h e he => exact he
  | tightest e he => exact he
  | chainEnd => exact fun left name h => ⟨h, rfl⟩
  | chainStep operator right rest hright hrest =>
    intro left name h
    cases (hrest _ name h).1
  | unary => exact fun name h => by cases h
  | primary e he => exact he
  | literal => exact fun name h => by cases h
  | identifier t =>
    intro name h
    cases h
    exact ⟨t, rfl, rfl⟩
  | grouping => exact fun name h => by cases h

/-- What the parser takes without complaint is derived from the symbol, with its result as the tree. -/
def Derives (s : Symbol) (p : Parse s.Tree) : Prop :=
  ∀ c a c', p c = ⟨.ok a, c', []⟩ → ∃ d : Derivation s, d.tree = a ∧ c.ahead = d.yield ++ c'.ahead

/-- The same for the chain of a level behind its first operand. -/
def DerivesChain (l : Level) (p : Expr → Parse Expr) : Prop :=
  ∀ left c e c', p left c = ⟨.ok e, c', []⟩ →
    ∃ d : Derivation (.chain l), d.tree left = e ∧ c.ahead = d.yield ++ c'.ahead

section

variable {fuel : Nat}

theorem derives_assignmentFuel (hl : Derives (.level .equality) (levelFuel fuel .equality))
    (ha : Derives .assignment (assignmentFuel fuel)) :
    Derives .assignment (assignmentFuel (fuel + 1)) := by
  intro c e c' h
  obtain ⟨left, m, hleft, hafter⟩ := bind_silent h
  obtain ⟨d, hd, hy⟩ := hl c left m hleft
  rcases accept_bind_silent hafter with ⟨equals, rest, hm, hk, hequals⟩ | hnone
  · obtain ⟨pos, m₁, hpos, hposition⟩ := bind_silent hequals
    obtain rfl : (⟨m.pos + 1, rest⟩ : Cursor) = m₁ := by
      cases hpos
      rfl
    obtain ⟨value, m₂, hvalue, htarget⟩ := bind_silent hposition
    obtain ⟨dv, hdv, hyv⟩ := ha _ value m₂ hvalue
    split at htarget
    · next name =>
      obtain ⟨rfl, rfl⟩ := pure_silent htarget
      obtain ⟨t, rfl, hname⟩ := d.namesOnly name hd
      refine ⟨.assign t ⟨equals, hk⟩ dv, by rw [← hdv]; rfl, ?_⟩
      rw [hy, hname, hm]
      exact congrArg (fun w => t.token :: equals :: w) hyv
    · obtain ⟨_, _, hcomplain, _⟩ := bind_silent htarget
      cases hcomplain
  · obtain ⟨rfl, rfl⟩ := pure_silent hnone
    exact ⟨.equality d, hd, hy⟩

theorem derives_levelFuel {l : Level} (ho : Derives (.operand l) (operandFuel fuel l))
    (hc : DerivesChain l (chainFuel fuel l)) : Derives (.level l) (levelFuel (fuel + 1) l) := by
  intro c e c' h
  obtain ⟨first, m, hfirst, h⟩ := bind_silent h
  obtain ⟨d, rfl, hy⟩ := ho c first m hfirst
  obtain ⟨dc, hdc, hyc⟩ := hc _ m e c' h
  exact ⟨.level d dc, hdc, by rw [hy, hyc, ← List.append_assoc]; rfl⟩

theorem derives_operandFuel (l : Level) (hl : ∀ l', Derives (.level l') (levelFuel fuel l'))
    (hu : Derives .unary (unaryFuel fuel)) : Derives (.operand l) (operandFuel (fuel + 1) l) := by
  intro c e c' h
  unfold operandFuel at h
  cases hl' : l.tighter with
  | some l' =>
    rw [hl'] at h
    obtain ⟨d, hd, hy⟩ := hl l' c e c' h
    exact ⟨.tighter (Level.tighter_eq_some_iff.mp hl') d, hd, hy⟩
  | none =>
    rw [hl'] at h
    obtain ⟨d, hd, hy⟩ := hu c e c' h
    obtain rfl := Level.tighter_eq_none_iff.mp hl'
    exact ⟨.tightest d, hd, hy⟩

theorem derives_chainFuel {l : Level} (ho : Derives (.operand l) (operandFuel fuel l))
    (hc : DerivesChain l (chainFuel fuel l)) : DerivesChain l (chainFuel (fuel + 1) l) := by
  intro left c e c' h
  rcases accept_bind_silent h with ⟨operator, rest, hm, hk, h⟩ | h
  · obtain ⟨right, m, hright, h⟩ := bind_silent h
    obtain ⟨d, rfl, hy⟩ := ho _ right m hright
    obtain ⟨dc, hdc, hyc⟩ := hc _ m e c' h
    refine ⟨.chainStep ⟨operator, Level.mem_terminals_iff.mpr hk⟩ d dc, hdc, ?_⟩
    rw [hm]
    change rest = _ at hy
    rw [hy, hyc, ← List.append_assoc]
    rfl
  · obtain ⟨rfl, rfl⟩ := pure_silent h
    exact ⟨.chainEnd, rfl, rfl⟩

theorem derives_unaryFuel (hu : Derives .unary (unaryFuel fuel))
    (hp : Derives .primary (primaryFuel fuel)) : Derives .unary (unaryFuel (fuel + 1)) := by
  intro c e c' h
  rcases accept_bind_silent h with ⟨operator, rest, hm, hk, h⟩ | h
  · obtain ⟨right, m, hright, h⟩ := bind_silent h
    obtain ⟨rfl, rfl⟩ := pure_silent h
    obtain ⟨d, rfl, hy⟩ := hu _ right m hright
    exact ⟨.unary ⟨operator, hk⟩ d, rfl, hm.trans (congrArg (operator :: ·) hy)⟩
  · obtain ⟨d, hd, hy⟩ := hp c e c' h
    exact ⟨.primary d, hd, hy⟩

theorem derives_primaryFuel (ha : Derives .assignment (assignmentFuel fuel)) :
    Derives .primary (primaryFuel (fuel + 1)) := by
  intro c e c' h
  rcases accept_bind_silent h with ⟨t, rest, hm, hk, h⟩ | h
  · simp only [List.mem_cons, List.not_mem_nil, or_false] at hk
    have hliteral (ht : t.kind ∈ literalKinds)
        (hv : (Pure.pure (.literal (literalValue t)) : Parse Expr) ⟨c.pos + 1, rest⟩ = ⟨.ok e, c', []⟩) :
        ∃ d : Derivation .primary, d.tree = e ∧ c.ahead = d.yield ++ c'.ahead := by
      obtain ⟨rfl, rfl⟩ := pure_silent hv
      exact ⟨.literal ⟨t, ht⟩, rfl, hm⟩
    rcases hk with hk | hk | hk | hk | hk | hk | hk <;> simp only [hk] at h
    on_goal 6 =>
      obtain ⟨rfl, rfl⟩ := pure_silent h
      exact ⟨.identifier ⟨t, List.mem_singleton.mpr hk⟩, rfl, hm⟩
    on_goal 6 =>
      obtain ⟨inner, m, hinner, hafter⟩ := bind_silent h
      obtain ⟨d, rfl, hy⟩ := ha _ inner m hinner
      obtain ⟨right, m', hright, hlast⟩ := bind_silent hafter
      obtain ⟨rfl, rfl⟩ := pure_silent hlast
      obtain ⟨close, rfl, hclose⟩ := consume_silent hright
      refine ⟨.grouping ⟨t, List.mem_singleton.mpr hk⟩ (.expression d) close, rfl, ?_⟩
      change rest = _ at hy
      rw [hm, hy, hclose]
      simp [Derivation.yield]
    all_goals exact hliteral (by simp [literalKinds, hk]) (by simpa [literalValue, hk] using h)
  · exact absurd h raiseHere_not_silent

end

theorem expression_derives (fuel : Nat) :
    Derives .assignment (assignmentFuel fuel) ∧
    (∀ l, Derives (.level l) (levelFuel fuel l)) ∧
    (∀ l, Derives (.operand l) (operandFuel fuel l)) ∧
    (∀ l, DerivesChain l (chainFuel fuel l)) ∧
    Derives .unary (unaryFuel fuel) ∧ Derives .primary (primaryFuel fuel) := by
  induction fuel with
  | zero =>
    refine ⟨?_, ?_, ?_, ?_, ?_, ?_⟩
    · rintro c a c' ⟨⟩
    · rintro l c a c' ⟨⟩
    · rintro l c a c' ⟨⟩
    · rintro l left c a c' ⟨⟩
    · rintro c a c' ⟨⟩
    · rintro c a c' ⟨⟩
  | succ fuel ih =>
    obtain ⟨ha, hl, ho, hc, hu, hp⟩ := ih
    exact ⟨derives_assignmentFuel (hl .equality) ha, fun l => derives_levelFuel (ho l) (hc l),
      fun l => derives_operandFuel l hl hu, fun l => derives_chainFuel (ho l) (hc l),
      derives_unaryFuel hu hp, derives_primaryFuel ha⟩

theorem derives_expression : Derives .expression expression := by
  intro c e c' h
  obtain ⟨d, hd, hy⟩ := (expression_derives _).1 c e c' h
  exact ⟨.expression d, hd, hy⟩

/-- An expression and the semicolon after it. -/
private theorem expression_consume_silent {problem : Problem} {f : Expr → Stmt} {c c' : Cursor}
    {s : Stmt}
    (h : (do
      let value ← expression
      let _ ← consume .semicolon problem
      return f value : Parse Stmt) c = ⟨.ok s, c', []⟩) :
    ∃ (d : Derivation .expression) (semicolon : Terminal [.semicolon]),
      f d.tree = s ∧ c.ahead = d.yield ++ semicolon.token :: c'.ahead := by
  obtain ⟨value, m, hvalue, hafter⟩ := bind_silent h
  obtain ⟨semicolon, m', hsemicolon, hlast⟩ := bind_silent hafter
  obtain ⟨rfl, rfl⟩ := pure_silent hlast
  obtain ⟨d, rfl, hy⟩ := derives_expression c value m hvalue
  obtain ⟨t, rfl, ht⟩ := consume_silent hsemicolon
  exact ⟨d, t, rfl, by rw [hy, ht]⟩

private theorem varDeclaration_silent {word : Token} (hw : word.kind ∈ [TokenKind.varWord])
    {c c' : Cursor} {s : Stmt} (h : varDeclaration c = ⟨.ok s, c', []⟩) :
    ∃ d : Derivation .declaration, d.tree = s ∧ word :: c.ahead = d.yield ++ c'.ahead := by
  obtain ⟨name, m, hname, hafter⟩ := bind_silent h
  obtain ⟨name, rfl, hn⟩ := consume_silent hname
  rcases accept_bind_silent hafter with ⟨equals, rest, hm, hk, hequals⟩ | hnone
  · obtain ⟨d, semicolon, rfl, hy⟩ := expression_consume_silent hequals
    refine ⟨.varWith ⟨word, hw⟩ name ⟨equals, hk⟩ d semicolon, rfl, ?_⟩
    change rest = _ at hy
    rw [hn, hm, hy]
    simp [Derivation.yield]
  · obtain ⟨semicolon, m', hsemicolon, hlast⟩ := bind_silent hnone
    obtain ⟨rfl, rfl⟩ := pure_silent hlast
    obtain ⟨semicolon, rfl, hs⟩ := consume_silent hsemicolon
    exact ⟨.var ⟨word, hw⟩ name semicolon, rfl, by rw [hn, hs]; rfl⟩

/-- The same for a declaration that needed no recovery. -/
def DerivesDeclaration (p : Parse (Option Stmt)) : Prop :=
  ∀ c a c', p c = ⟨.ok a, c', []⟩ →
    ∃ d : Derivation .declaration, a = some d.tree ∧ c.ahead = d.yield ++ c'.ahead

/-- The same for the inside of a block and the brace that closes it. -/
def DerivesBlock (p : Parse (List Stmt)) : Prop :=
  ∀ c ss c', p c = ⟨.ok ss, c', []⟩ →
    ∃ (d : Derivation .declarations) (right : Terminal [.rightBrace]),
      d.tree = ss ∧ c.ahead = d.yield ++ right.token :: c'.ahead

section

variable {fuel : Nat}

theorem derives_declarationFuel (hs : Derives .statement (statementFuel fuel)) :
    DerivesDeclaration (declarationFuel (fuel + 1)) := by
  intro c a c' h
  obtain ⟨s, rfl, hbody⟩ := recovering_silent (declarationBody_moves (statement_moves fuel).2.1) h
  rcases accept_bind_silent hbody with ⟨word, rest, hm, hk, hvar⟩ | hstatement
  · obtain ⟨d, rfl, hy⟩ := varDeclaration_silent hk hvar
    exact ⟨d, rfl, hm.trans hy⟩
  · obtain ⟨d, rfl, hy⟩ := hs c s c' hstatement
    exact ⟨.statement d, rfl, hy⟩

theorem derives_statementFuel (hb : DerivesBlock (blockFuel fuel)) :
    Derives .statement (statementFuel (fuel + 1)) := by
  intro c s c' h
  rcases accept_bind_silent h with ⟨t, rest, hm, hk, htaken⟩ | hexpression
  · dsimp only at htaken
    split at htaken
    · next hprint =>
      obtain ⟨d, semicolon, rfl, hy⟩ := expression_consume_silent htaken
      refine ⟨.print ⟨t, List.mem_singleton.mpr hprint⟩ d semicolon, rfl, ?_⟩
      change rest = _ at hy
      rw [hm, hy]
      simp [Derivation.yield]
    · next hprint =>
      obtain ⟨body, m, hbody, hlast⟩ := bind_silent htaken
      obtain ⟨rfl, rfl⟩ := pure_silent hlast
      obtain ⟨d, right, rfl, hy⟩ := hb _ body m hbody
      have hleft : t.kind ∈ [TokenKind.leftBrace] := by simpa [hprint] using hk
      refine ⟨.block ⟨t, hleft⟩ d right, rfl, ?_⟩
      change rest = _ at hy
      rw [hm, hy]
      simp [Derivation.yield]
  · obtain ⟨d, semicolon, rfl, hy⟩ := expression_consume_silent hexpression
    refine ⟨.expressionStatement d semicolon, rfl, ?_⟩
    rw [hy]
    simp [Derivation.yield]

theorem derives_blockFuel (hd : DerivesDeclaration (declarationFuel fuel))
    (hb : DerivesBlock (blockFuel fuel)) : DerivesBlock (blockFuel (fuel + 1)) := by
  intro c ss c' h
  obtain ⟨t, m, hpeek, hafter⟩ := bind_silent h
  obtain rfl : c = m := by
    obtain ⟨pos, _ | ⟨t', rest⟩⟩ := c <;> cases hpeek
    rfl
  split at hafter
  · obtain ⟨right, m', hright, hlast⟩ := bind_silent hafter
    obtain ⟨rfl, rfl⟩ := pure_silent hlast
    obtain ⟨right, rfl, hr⟩ := consume_silent hright
    exact ⟨.nil, right, rfl, hr⟩
  · obtain ⟨first, m', hfirst, hrest⟩ := bind_silent hafter
    obtain ⟨d, rfl, hy⟩ := hd c first m' hfirst
    obtain ⟨rest, m'', hblock, hlast⟩ := bind_silent hrest
    obtain ⟨rfl, rfl⟩ := pure_silent hlast
    obtain ⟨ds, right, rfl, hyr⟩ := hb m' rest m'' hblock
    refine ⟨.cons d ds, right, rfl, ?_⟩
    rw [hy, hyr, ← List.append_assoc]
    rfl

end

theorem statement_derives (fuel : Nat) :
    DerivesDeclaration (declarationFuel fuel) ∧ Derives .statement (statementFuel fuel) ∧
    DerivesBlock (blockFuel fuel) := by
  induction fuel with
  | zero =>
    refine ⟨?_, ?_, ?_⟩
    · rintro c a c' ⟨⟩
    · rintro c a c' ⟨⟩
    · rintro c a c' ⟨⟩
  | succ fuel ih =>
    obtain ⟨hd, hs, hb⟩ := ih
    exact ⟨derives_declarationFuel hs, derives_statementFuel hb, derives_blockFuel hd hb⟩

theorem program_derives (fuel : Nat) {c c' : Cursor} {ss : List Stmt}
    (h : programFuel fuel c = ⟨.ok ss, c', []⟩) :
    ∃ (d : Derivation .declarations) (e : Token) (rest : List Token),
      d.tree = ss ∧ c.ahead = d.yield ++ e :: rest ∧ e.kind = .eof := by
  induction fuel generalizing c ss with
  | zero => cases h
  | succ fuel ih =>
    obtain ⟨atEnd, m, hend, hafter⟩ := bind_silent h
    obtain ⟨pos, _ | ⟨t, rest⟩⟩ := c
    · cases hend
    rw [atEnd_apply] at hend
    cases hend
    split at hafter
    · next ht =>
      obtain ⟨rfl, rfl⟩ := pure_silent hafter
      exact ⟨.nil, t, rest, rfl, rfl, by simpa using ht⟩
    · obtain ⟨first, m, hfirst, hrest⟩ := bind_silent hafter
      obtain ⟨d, rfl, hy⟩ := (statement_derives fuel).1 _ first m hfirst
      obtain ⟨more, m', hmore, hlast⟩ := bind_silent hrest
      obtain ⟨rfl, rfl⟩ := pure_silent hlast
      obtain ⟨ds, e, others, rfl, hye, he⟩ := ih hmore
      refine ⟨.cons d ds, e, others, rfl, ?_, he⟩
      rw [hy, hye, ← List.append_assoc]
      rfl

/-- A derivable text in front of the end marker is parsed to the tree of the derivation. -/
theorem Derivation.parse_yield (d : Derivation .declarations) {e : Token} (he : e.kind = .eof) :
    parse (d.yield ++ [e]) = ⟨.ok d.tree, ⟨d.yield.length, [e]⟩, []⟩ := by
  obtain ⟨n, hn⟩ := d.read.2 e he
  have hread := hn n (Nat.le_refl n) 0
  have hend : ∃ t ∈ (Cursor.mk 0 (d.yield ++ [e])).ahead, t.kind = .eof := ⟨e, by simp, he⟩
  obtain ⟨ss, hss⟩ := program_ok hend
  have hfuel : fueled programFuel ⟨0, d.yield ++ [e]⟩ = programFuel n ⟨0, d.yield ++ [e]⟩ := by
    refine fueled_eq program_extendedBy ?_ (by simp [hread])
    change (program _).result ≠ _
    simp [hss]
  exact hfuel.trans (by rw [hread, Nat.zero_add])

/-- A text that is parsed without complaint has a derivation. -/
theorem exists_derivation_of_silent {ts : List Token} {e : Token} (he : e.kind = .eof)
    (hts : ∀ t ∈ ts, t.kind ≠ .eof) (h : (parse (ts ++ [e])).complaints = []) :
    ∃ d : Derivation .declarations, d.yield = ts := by
  obtain ⟨ss, hss⟩ := program_ok (c := ⟨0, ts ++ [e]⟩) ⟨e, by simp, he⟩
  have hsilent : program ⟨0, ts ++ [e]⟩ = ⟨.ok ss, (program ⟨0, ts ++ [e]⟩).cursor, []⟩ := by
    rw [← hss, ← h]
    rfl
  obtain ⟨d, e', rest, -, hy, he'⟩ := program_derives _ hsilent
  refine ⟨d, ?_⟩
  -- the end marker that the parser stopped at is the only one
  rcases List.append_eq_append_iff.mp hy with ⟨as, hd, has⟩ | ⟨bs, rfl, hbs⟩
  · cases as with
    | nil => simpa using hd
    | cons a as => simp at has
  · cases bs with
    | nil => simp
    | cons b bs =>
      cases hbs
      exact absurd he' (hts e' (by simp))

/-- Exactly the derivable lists of tokens are parsed without complaint. The derivation is then
unique, and the program is its tree, which shows all tokens in order. -/
theorem parse_silent_iff_derivable (ts : List Token) (e : Token) (he : e.kind = .eof)
    (hts : ∀ t ∈ ts, t.kind ≠ .eof) :
    ((parse (ts ++ [e])).complaints = [] ↔ ∃ d : Derivation .declarations, d.yield = ts) ∧
    ∀ d : Derivation .declarations, d.yield = ts →
      (∀ d' : Derivation .declarations, d'.yield = ts → d' = d) ∧
      (parse (ts ++ [e])).result = .ok d.tree ∧
      List.Forall₂ Piece.Fits (Stmt.allPieces d.tree) ts := by
  refine ⟨⟨exists_derivation_of_silent he hts, ?_⟩, ?_⟩
  · rintro ⟨d, rfl⟩
    rw [d.parse_yield he]
  · rintro d rfl
    refine ⟨fun d' hd' => d'.eq_of_yield_eq d hd', ?_, d.shows⟩
    rw [d.parse_yield he]

/-- The tokens of `a = b = !nil;`. -/
private def nestedAssignment : List Token :=
  [⟨.identifier, "a", .nil, 1⟩, ⟨.equal, "=", .nil, 1⟩, ⟨.identifier, "b", .nil, 1⟩,
    ⟨.equal, "=", .nil, 1⟩, ⟨.bang, "!", .nil, 1⟩, ⟨.nilWord, "nil", .nil, 1⟩,
    ⟨.semicolon, ";", .nil, 1⟩]

theorem nestedAssignment_derivable :
    (∀ t ∈ nestedAssignment, t.kind ≠ .eof) ∧
    (parse (nestedAssignment ++ [⟨.eof, "", .nil, 1⟩])).complaints = [] ∧
    ∃ d : Derivation .declarations, d.yield = nestedAssignment ∧
      (∀ d' : Derivation .declarations, d'.yield = nestedAssignment → d' = d) ∧
      List.Forall₂ Piece.Fits (Stmt.allPieces d.tree) nestedAssignment := by
  have hts : ∀ t ∈ nestedAssignment, t.kind ≠ .eof := by decide
  have hsilent : (parse (nestedAssignment ++ [⟨.eof, "", .nil, 1⟩])).complaints = [] := rfl
  have hparse := parse_silent_iff_derivable nestedAssignment ⟨.eof, "", .nil, 1⟩ rfl hts
  obtain ⟨d, hd⟩ := hparse.1.mp hsilent
  obtain ⟨hunique, -, hpieces⟩ := hparse.2 d hd
  exact ⟨hts, hsilent, d, hd, hunique, hpieces⟩

end LoxLang.Grammar
