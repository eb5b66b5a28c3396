import LoxLang.Proofs.Grammar.Completeness

/-!
Parsers do not know where they are. They look at the token at the cursor only, and only at its kind
and literal, so tokens that are moved to other places are parsed to the moved tree, with the same
complaints about the moved tokens. Nor does it matter what stands behind a token that no parser can
pass over.
-/
namespace LoxLang.Grammar

open Parse

variable {α β : Type}

/-- Tokens at other places: positions grow by the same number, and each token gives way to one of
its kind with its literal. -/
structure Relocation where
  shift : Nat
  token : Token → Token
  kind_token : ∀ t, (token t).kind = t.kind
  literal_token : ∀ t, (token t).literal = t.literal

namespace Relocation

/-- The same tokens at later positions. -/
def later (shift : Nat) : Relocation :=
  ⟨shift, id, fun _ => rfl, fun _ => rfl⟩

variable (m : Relocation)

def expr : Expr → Expr
  | .literal value => .literal value
  | .grouping inner => .grouping (expr inner)
  | .unary operator right => .unary (m.token operator) (expr right)
  | .binary left operator right => .binary (expr left) (m.token operator) (expr right)
  | .variable name => .variable (m.token name)
  | .assign name value => .assign (m.token name) (expr value)

mutual

def stmt : Stmt → Stmt
  | .expression e => .expression (m.expr e)
  | .print e => .print (m.expr e)
  | .var name initializer => .var (m.token name) (initializer.map m.expr)
  | .block body => .block (stmts body)

def stmts : List Stmt → List Stmt
  | [] => []
  | s :: ss => stmt s :: stmts ss

end

def complaint (b : Complaint) : Complaint :=
  ⟨b.pos + m.shift, m.token b.token, b.problem⟩

def stop : Stop → Stop
  | .raised b => .raised (m.complaint b)
  | .pastEnd => .pastEnd

def result (g : α → α) : Except Stop α → Except Stop α
  | .ok a => .ok (g a)
  | .error s => .error (m.stop s)

def cursor (c : Cursor) : Cursor :=
  ⟨c.pos + m.shift, c.ahead.map m.token⟩

theorem expr_later (k : Nat) (e : Expr) : (later k).expr e = e := by
  induction e with
  | literal => rfl
  | grouping e ih => rw [expr, ih]
  | unary operator e ih => rw [expr, ih]; rfl
  | binary l operator r ihl ihr => rw [expr, ihl, ihr]; rfl
  | «variable» => rfl
  | assign name e ih => rw [expr, ih]; rfl

mutual

theorem stmt_later (k : Nat) : (s : Stmt) → (later k).stmt s = s
  | .expression e => congrArg Stmt.expression (expr_later k e)
  | .print e => congrArg Stmt.print (expr_later k e)
  | .var _ none => rfl
  | .var name (some e) => congrArg (fun e => Stmt.var name (some e)) (expr_later k e)
  | .block body => congrArg Stmt.block (stmts_later k body)

theorem stmts_later (k : Nat) : (ss : List Stmt) → (later k).stmts ss = ss
  | [] => rfl
  | s :: ss => congrArg₂ List.cons (stmt_later k s) (stmts_later k ss)

end

/-- The outcomes correspond: the results and complaints by relocation, the cursors by one relation
after an error and by another one otherwise. -/
structure Carries (E O : Cursor → Cursor → Prop) (g : α → α) (o o' : Outcome α) : Prop where
  result : o'.result = m.result g o.result
  stopped : ∀ s, o.result = .error s → E o.cursor o'.cursor
  passed : ∀ a, o.result = .ok a → O o.cursor o'.cursor
  complaints : o'.complaints = o.complaints.map m.complaint

/-- Related cursors see corresponding tokens, and over a token with the property they get to cursors
with the second relation. -/
structure Steps (P : Token → Prop) (R O : Cursor → Cursor → Prop) : Prop where
  pos : ∀ {c c'}, R c c' → c'.pos = c.pos + m.shift
  nil : ∀ {pos c'}, R ⟨pos, []⟩ c' → c'.ahead = []
  cons : ∀ {pos t rest c'}, R ⟨pos, t :: rest⟩ c' →
    ∃ rest', c'.ahead = m.token t :: rest' ∧ (P t → O ⟨pos + 1, rest⟩ ⟨c'.pos + 1, rest'⟩)

/-- From related cursors the two parsers have corresponding outcomes. -/
def Transports (R E O : Cursor → Cursor → Prop) (g : α → α) (p q : Parse α) : Prop :=
  ∀ c c', R c c' → m.Carries E O g (p c) (q c')

variable {m} {P : Token → Prop} {R E O O₁ : Cursor → Cursor → Prop}

theorem carries_error {g : α → α} {o o' : Outcome α} {s : Stop} (ho : o.result = .error s)
    (ho' : o'.result = .error (m.stop s)) (hcursor : E o.cursor o'.cursor)
    (hcomplaints : o'.complaints = o.complaints.map m.complaint) : m.Carries E O g o o' := by
  refine ⟨by rw [ho, ho']; rfl, fun _ _ => hcursor, ?_, hcomplaints⟩
  intro a ha
  rw [ho] at ha
  cases ha

theorem carries_ok {g : α → α} {o o' : Outcome α} {a : α} (ho : o.result = .ok a)
    (ho' : o'.result = .ok (g a)) (hcursor : O o.cursor o'.cursor)
    (hcomplaints : o'.complaints = o.complaints.map m.complaint) : m.Carries E O g o o' := by
  refine ⟨by rw [ho, ho']; rfl, ?_, fun _ _ => hcursor, hcomplaints⟩
  intro s hs
  rw [ho] at hs
  cases hs

theorem Transports.bind {g : α → α} {h : β → β} {p q : Parse α} {f f' : α → Parse β}
    (hp : m.Transports R E O₁ g p q) (hf : ∀ a, m.Transports O₁ E O h (f a) (f' (g a))) :
    m.Transports R E O h (p >>= f) (q >>= f') := by
  intro c c' hc
  obtain ⟨hresult, hstopped, hpassed, hcomplaints⟩ := hp c c' hc
  cases hr : (p c).result with
  | error s =>
    have hr' : (q c').result = .error (m.stop s) := by rw [hresult, hr]; rfl
    rw [bind_of_error hr, bind_of_error hr']
    exact carries_error rfl rfl (hstopped s hr) hcomplaints
  | ok a =>
    have hr' : (q c').result = .ok (g a) := by rw [hresult, hr]; rfl
    have hfa := hf a _ _ (hpassed a hr)
    rw [bind_of_ok hr, bind_of_ok hr']
    refine ⟨hfa.result, hfa.stopped, hfa.passed, ?_⟩
    rw [List.map_append, ← hcomplaints, ← hfa.complaints]

theorem transports_pure {g : α → α} {a a' : α} (h : a' = g a) :
    m.Transports R E R g (Pure.pure a) (Pure.pure a') := by
  intro c c' hc
  subst h
  exact carries_ok rfl rfl hc rfl

theorem transports_pastEnd {g : α → α} : m.Transports R R O g pastEnd pastEnd :=
  fun _ _ hc => carries_error rfl rfl hc rfl

theorem transports_complain (blame : Complaint) :
    m.Transports R E R id (complain blame) (complain (m.complaint blame)) :=
  fun _ _ hc => carries_ok rfl rfl hc rfl

theorem transports_peek (hs : m.Steps P R O₁) : m.Transports R R R m.token peek peek := by
  rintro ⟨pos, _ | ⟨t, rest⟩⟩ ⟨pos', ahead'⟩ hc
  · have hnil := hs.nil hc
    subst hnil
    exact carries_error rfl rfl hc rfl
  · obtain ⟨rest', hahead, -⟩ := hs.cons hc
    dsimp only at hahead
    subst hahead
    exact carries_ok rfl rfl hc rfl

theorem transports_raiseHere (hs : m.Steps P R O₁) {g : α → α} (problem : Problem) :
    m.Transports R R O g (raiseHere problem) (raiseHere problem) := by
  rintro ⟨pos, _ | ⟨t, rest⟩⟩ ⟨pos', ahead'⟩ hc
  · have hnil := hs.nil hc
    subst hnil
    exact carries_error rfl rfl hc rfl
  · obtain ⟨rest', hahead, -⟩ := hs.cons hc
    have hpos := hs.pos hc
    dsimp only at hahead hpos
    subst hahead hpos
    exact carries_error rfl rfl hc rfl

/-- A choice by the token at the cursor. When the token was taken, the position is known to have
grown. -/
theorem transports_accept_bind {g : β → β} {kinds : List TokenKind} {f f' : Option Token → Parse β}
    (hs : m.Steps P R O₁) (hP : ∀ t : Token, t.kind ∈ kinds → P t)
    (hsome : ∀ t pos rest c', t.kind ∈ kinds → O₁ ⟨pos + 1, rest⟩ c' →
      m.Carries R O g (f (some t) ⟨pos + 1, rest⟩) (f' (some (m.token t)) c'))
    (hnone : m.Transports R R O g (f none) (f' none)) :
    m.Transports R R O g (accept kinds >>= f) (accept kinds >>= f') := by
  rintro ⟨pos, _ | ⟨t, rest⟩⟩ ⟨pos', ahead'⟩ hc
  · have hnil := hs.nil hc
    subst hnil
    exact carries_error rfl rfl hc rfl
  obtain ⟨rest', hahead, hnext⟩ := hs.cons hc
  dsimp only at hahead hnext
  subst hahead
  by_cases ht : t.kind ≠ .eof ∧ t.kind ∈ kinds
  · rw [accept_bind_of_mem ht.1 ht.2,
      accept_bind_of_mem (by rw [m.kind_token]; exact ht.1) (by rw [m.kind_token]; exact ht.2)]
    exact hsome t pos rest _ ht.2 (hnext (hP t ht.2))
  · rw [accept_bind_of_not ht, accept_bind_of_not (by rw [m.kind_token]; exact ht)]
    exact hnone _ _ hc

theorem transports_consume {kind : TokenKind} (hs : m.Steps P R O)
    (hP : ∀ t : Token, t.kind = kind → P t) (problem : Problem) :
    m.Transports R R O m.token (consume kind problem) (consume kind problem) :=
  transports_accept_bind hs (fun t ht => hP t (List.mem_singleton.mp ht))
    (fun _ _ _ _ _ hc => transports_pure rfl _ _ hc) (transports_raiseHere hs problem)

/-- Where a construct is given up, recovery starts from related cursors too. -/
theorem Transports.recovering {g : α → α} {p q : Parse α} (hp : m.Transports R R O g p q)
    (hsync : m.Transports R R O id synchronize synchronize) :
    m.Transports R R O (Option.map g) (recovering p) (recovering q) := by
  intro c c' hc
  obtain ⟨hresult, hstopped, hpassed, hcomplaints⟩ := hp c c' hc
  cases hr : (p c).result with
  | ok a =>
    have hr' : (q c').result = .ok (g a) := by rw [hresult, hr]; rfl
    rw [recovering_of_ok hr, recovering_of_ok hr']
    exact carries_ok rfl rfl (hpassed a hr) hcomplaints
  | error s =>
    have hr' : (q c').result = .error (m.stop s) := by rw [hresult, hr]; rfl
    have hcursor := hstopped s hr
    cases s with
    | pastEnd =>
      rw [recovering_of_pastEnd hr, recovering_of_pastEnd hr']
      exact carries_error rfl rfl hcursor hcomplaints
    | raised b =>
      obtain ⟨hsresult, hsstopped, hspassed, hscomplaints⟩ := hsync _ _ hcursor
      rw [recovering_of_raised hr, recovering_of_raised hr']
      have hall : (q c').complaints ++ (synchronize (q c').cursor).complaints =
          ((p c).complaints ++ (synchronize (p c).cursor).complaints).map m.complaint := by
        rw [List.map_append, hcomplaints, hscomplaints]
      cases hy : (synchronize (p c).cursor).result with
      | ok u =>
        have hy' : (synchronize (q c').cursor).result = .ok u := by rw [hsresult, hy]; rfl
        rw [hy']
        exact carries_ok rfl rfl (hspassed u hy) hall
      | error s =>
        have hy' : (synchronize (q c').cursor).result = .error (m.stop s) := by rw [hsresult, hy]; rfl
        rw [hy']
        exact carries_error rfl rfl (hsstopped s hy) hall

variable (m)

/-- The tokens ahead correspond up to where `r` begins for the one and `r'` for the other cursor. -/
def UpTo (r r' : List Token) (c c' : Cursor) : Prop :=
  c'.pos = c.pos + m.shift ∧ ∃ u, c.ahead = u ++ r ∧ c'.ahead = u.map m.token ++ r'

variable {m}

theorem upTo_nil_iff {c c' : Cursor} : m.UpTo [] [] c c' ↔ c' = m.cursor c := by
  obtain ⟨pos, ahead⟩ := c
  obtain ⟨pos', ahead'⟩ := c'
  constructor
  · rintro ⟨hpos, u, hu, hu'⟩
    simp only [List.append_nil] at hpos hu hu'
    rw [hpos, hu, hu']
    rfl
  · intro h
    cases h
    exact ⟨rfl, ahead, by simp, by simp⟩

theorem steps_upTo_nil : m.Steps (fun _ => True) (m.UpTo [] []) (m.UpTo [] []) where
  pos h := h.1
  nil h := by
    rw [upTo_nil_iff.mp h]
    rfl
  cons h := by
    rw [upTo_nil_iff] at h
    subst h
    exact ⟨_, rfl, fun _ => upTo_nil_iff.mpr (by simp [cursor, Nat.add_right_comm])⟩

/-- Over the token where the other tokens begin, the cursors get to these. -/
theorem steps_upTo_tail (t : Token) (r r' : List Token) :
    m.Steps (fun _ => True) (m.UpTo (t :: r) (m.token t :: r')) (m.UpTo r r') where
  pos h := h.1
  nil := by
    rintro pos c' ⟨-, u, hu, -⟩
    simp at hu
  cons := by
    rintro pos x rest c' ⟨hpos, _ | ⟨y, u⟩, hu, hu'⟩
    · cases hu
      exact ⟨r', hu', fun _ => ⟨by simp [hpos, Nat.add_right_comm], [], rfl, rfl⟩⟩
    · cases hu
      refine ⟨_, hu', fun _ => ⟨by simp [hpos, Nat.add_right_comm], u ++ [t], by simp, by simp⟩⟩

/-- A token without the property keeps the cursors from the tokens behind it. -/
theorem steps_upTo {t : Token} (ht : ¬ P t) (r r' : List Token) :
    m.Steps P (m.UpTo (t :: r) (m.token t :: r')) (m.UpTo (t :: r) (m.token t :: r')) where
  pos h := h.1
  nil := (steps_upTo_tail t r r').nil
  cons := by
    rintro pos x rest c' ⟨hpos, _ | ⟨y, u⟩, hu, hu'⟩
    · cases hu
      exact ⟨r', hu', fun hP => absurd hP ht⟩
    · cases hu
      exact ⟨_, hu', fun _ => ⟨by simp [hpos, Nat.add_right_comm], u, rfl, rfl⟩⟩

end Relocation

open Relocation

variable {m : Relocation} {P : Token → Prop} {R : Cursor → Cursor → Prop}

/-- The parsers of expressions pass over tokens of expressions only, so they have corresponding
outcomes wherever such tokens correspond. -/
theorem expression_transports (hs : m.Steps P R R) (hP : ∀ t, InExpression t → P t) (fuel : Nat) :
    m.Transports R R R m.expr (assignmentFuel fuel) (assignmentFuel fuel) ∧
    (∀ l, m.Transports R R R m.expr (levelFuel fuel l) (levelFuel fuel l)) ∧
    (∀ l, m.Transports R R R m.expr (operandFuel fuel l) (operandFuel fuel l)) ∧
    (∀ l left, m.Transports R R R m.expr (chainFuel fuel l left) (chainFuel fuel l (m.expr left))) ∧
    m.Transports R R R m.expr (unaryFuel fuel) (unaryFuel fuel) ∧
    m.Transports R R R m.expr (primaryFuel fuel) (primaryFuel fuel) := by
  have hkinds : ∀ {kinds : List TokenKind}, kinds ⊆ expressionKinds →
      ∀ t : Token, t.kind ∈ kinds → P t := fun hk t ht => hP t (hk ht)
  induction fuel with
  | zero =>
    exact ⟨transports_pastEnd, fun _ => transports_pastEnd, fun _ => transports_pastEnd,
      fun _ _ => transports_pastEnd, transports_pastEnd, transports_pastEnd⟩
  | succ fuel ih =>
    obtain ⟨ha, hl, ho, hc, hu, hp⟩ := ih
    refine ⟨?_, ?_, ?_, ?_, ?_, ?_⟩
    · refine (hl .equality).bind fun left => ?_
      refine transports_accept_bind hs (hkinds (by simp [expressionKinds])) ?_ (transports_pure rfl)
      intro equals pos rest c' _ hrel
      -- the position of the equals sign is one less than that of the cursor behind it
      have hequals : c'.pos - 1 = pos + m.shift := by rw [hs.pos hrel]; simp
      refine ha.bind (fun value => ?_) _ _ hrel
      rw [hequals]
      cases left with
      | «variable» name => exact transports_pure rfl
      | _ =>
        exact (transports_complain ⟨pos, equals, .invalidTarget⟩).bind
          fun _ => transports_pure rfl
    · exact fun l => (ho l).bind fun first => hc l first
    · intro l
      unfold operandFuel
      cases l.tighter with
      | some tighter => exact hl tighter
      | none => exact hu
    · intro l left
      refine transports_accept_bind hs (hkinds l.operators_subset) ?_ (transports_pure rfl)
      intro operator pos rest c' _ hrel
      exact (ho l).bind (fun right => hc l (.binary left operator right)) _ _ hrel
    · refine transports_accept_bind hs (hkinds (by simp [expressionKinds])) ?_ hp
      intro operator pos rest c' _ hrel
      have hunary : m.Transports R R R m.expr (unaryFuel fuel >>= fun right => Pure.pure (.unary operator right))
          (unaryFuel fuel >>= fun right => Pure.pure (.unary (m.token operator) right)) :=
        hu.bind fun right => transports_pure rfl
      exact hunary _ _ hrel
    · refine transports_accept_bind hs (hkinds (by simp [expressionKinds])) ?_
        (transports_raiseHere hs _)
      intro t pos rest c' hk hrel
      have hparen : ∀ t : Token, t.kind = .rightParen → P t :=
        fun t ht => hP t (by simp [InExpression, expressionKinds, ht])
      have hgrouping : m.Transports R R R m.expr
          (do
            let inner ← assignmentFuel fuel
            let _ ← consume .rightParen .expectParenAfterExpression
            return .grouping inner)
          (do
            let inner ← assignmentFuel fuel
            let _ ← consume .rightParen .expectParenAfterExpression
            return .grouping inner) :=
        ha.bind fun inner => (transports_consume hs hparen _).bind fun _ => transports_pure rfl
      have hliteral : m.Transports R R R m.expr (Pure.pure (.literal t.literal))
          (Pure.pure (.literal (m.token t).literal)) :=
        transports_pure (by rw [m.literal_token]; rfl)
      dsimp only
      rw [m.kind_token]
      simp only [List.mem_cons, List.not_mem_nil, or_false] at hk
      rcases hk with hk | hk | hk | hk | hk | hk | hk <;> simp only [hk]
      case inr.inr.inr.inl => exact hliteral _ _ hrel
      case inr.inr.inr.inr.inl => exact hliteral _ _ hrel
      case inr.inr.inr.inr.inr.inr => exact hgrouping _ _ hrel
      all_goals exact transports_pure rfl _ _ hrel

/-! The statements that end with a semicolon, behind which another relation may hold. -/

section

variable {O : Cursor → Cursor → Prop} (hs : m.Steps P R R) (hP : ∀ t, InExpression t → P t)
  (hend : m.Steps (fun _ => True) R O) (he : m.Transports R R R m.expr expression expression)

include hend in
theorem transports_semicolon (problem : Problem) :
    m.Transports R R O m.token (consume .semicolon problem) (consume .semicolon problem) :=
  transports_consume hend (fun _ _ => trivial) problem

include hs hP hend he in
theorem varDeclaration_transports : m.Transports R R O m.stmt varDeclaration varDeclaration := by
  have hname : ∀ t : Token, t.kind = .identifier → P t :=
    fun t ht => hP t (by simp [InExpression, expressionKinds, ht])
  have hequal : ∀ t : Token, t.kind ∈ [TokenKind.equal] → P t :=
    fun t ht => hP t (by simp_all [InExpression, expressionKinds])
  refine (transports_consume hs hname _).bind fun name => ?_
  refine transports_accept_bind hs hequal (fun equals pos rest c' _ hrel => ?_) ?_
  · have hvalue : m.Transports R R O m.stmt
        (do
          let value ← expression
          let _ ← consume .semicolon .expectSemicolonAfterDeclaration
          return .var name (some value))
        (do
          let value ← expression
          let _ ← consume .semicolon .expectSemicolonAfterDeclaration
          return .var (m.token name) (some value)) :=
      he.bind fun value => (transports_semicolon hend _).bind fun _ => transports_pure rfl
    exact hvalue _ _ hrel
  · exact (transports_semicolon hend _).bind fun _ => transports_pure rfl

include hend he in
theorem printStatement_transports : m.Transports R R O m.stmt printStatement printStatement :=
  he.bind fun _ => (transports_semicolon hend _).bind fun _ => transports_pure rfl

include hend he in
theorem expressionStatement_transports :
    m.Transports R R O m.stmt expressionStatement expressionStatement :=
  he.bind fun _ => (transports_semicolon hend _).bind fun _ => transports_pure rfl

end

/-! Whole lists of tokens, of which nothing stays where it is. -/

theorem skipTo_transports (hs : m.Steps (fun _ => True) R R) (last : Token) (pos : Nat)
    (ts : List Token) (c' : Cursor) (hc : R ⟨pos, ts⟩ c') :
    m.Carries R R id (skipTo last pos ts) (skipTo (m.token last) c'.pos c'.ahead) := by
  induction ts generalizing last pos c' with
  | nil =>
    obtain ⟨pos', ahead'⟩ := c'
    have hnil := hs.nil hc
    subst hnil
    exact carries_error rfl rfl hc rfl
  | cons t rest ih =>
    obtain ⟨pos', ahead'⟩ := c'
    obtain ⟨rest', hahead, hnext⟩ := hs.cons hc
    dsimp only at hahead hnext
    subst hahead
    simp only [skipTo, m.kind_token]
    split
    · exact carries_ok rfl rfl hc rfl
    · exact ih t (pos + 1) ⟨pos' + 1, rest'⟩ (hnext trivial)

theorem synchronize_transports (hs : m.Steps (fun _ => True) R R) :
    m.Transports R R R id synchronize synchronize := by
  rintro ⟨pos, _ | ⟨t, rest⟩⟩ ⟨pos', ahead'⟩ hc
  · have hnil := hs.nil hc
    subst hnil
    exact carries_error rfl rfl hc rfl
  · obtain ⟨rest', hahead, hnext⟩ := hs.cons hc
    dsimp only at hahead hnext
    subst hahead
    simp only [synchronize, m.kind_token]
    split
    · exact carries_ok rfl rfl hc rfl
    · exact skipTo_transports hs t (pos + 1) rest ⟨pos' + 1, rest'⟩ (hnext trivial)

/-- The parser does with the relocated tokens what it does with the tokens. -/
def Relocation.Relocates (m : Relocation) (g : α → α) (p : Parse α) : Prop :=
  m.Transports (m.UpTo [] []) (m.UpTo [] []) (m.UpTo [] []) g p p

theorem relocates_fueled {g : α → α} {p : Nat → Parse α} (hp : ∀ fuel, m.Relocates g (p fuel)) :
    m.Relocates g (fueled p) := by
  intro c c' hc
  have hlength : c'.ahead.length = c.ahead.length := by
    rw [upTo_nil_iff.mp hc, cursor, List.length_map]
  unfold fueled
  rw [hlength]
  exact hp _ c c' hc

theorem expression_relocates : m.Relocates m.expr expression :=
  relocates_fueled fun fuel => (expression_transports steps_upTo_nil (fun _ _ => trivial) fuel).1

theorem statement_relocates (fuel : Nat) :
    m.Relocates (Option.map m.stmt) (declarationFuel fuel) ∧
    m.Relocates m.stmt (statementFuel fuel) ∧ m.Relocates m.stmts (blockFuel fuel) := by
  have hs : m.Steps (fun _ => True) (m.UpTo [] []) (m.UpTo [] []) := steps_upTo_nil
  induction fuel with
  | zero => exact ⟨transports_pastEnd, transports_pastEnd, transports_pastEnd⟩
  | succ fuel ih =>
    obtain ⟨hd, hst, hb⟩ := ih
    refine ⟨?_, ?_, ?_⟩
    · refine Transports.recovering ?_ (synchronize_transports hs)
      refine transports_accept_bind hs (fun _ _ => trivial) (fun word pos rest c' _ hrel => ?_) hst
      exact varDeclaration_transports hs (fun _ _ => trivial) hs expression_relocates _ _ hrel
    · refine transports_accept_bind hs (fun _ _ => trivial) (fun t pos rest c' _ hrel => ?_)
        (expressionStatement_transports hs expression_relocates)
      dsimp only
      rw [m.kind_token]
      split
      · exact printStatement_transports hs expression_relocates _ _ hrel
      · have hblock : m.Relocates m.stmt (blockFuel fuel >>= fun body => Pure.pure (.block body)) :=
          hb.bind fun body => transports_pure rfl
        exact hblock _ _ hrel
    · refine (transports_peek hs).bind fun t => ?_
      rw [m.kind_token]
      split
      · exact (transports_consume hs (fun _ _ => trivial) _).bind fun _ => transports_pure rfl
      · refine hd.bind fun first => hb.bind fun rest => transports_pure ?_
        cases first with
        | none => rfl
        | some s => rfl

theorem program_relocates : m.Relocates m.stmts program := by
  have hs : m.Steps (fun _ => True) (m.UpTo [] []) (m.UpTo [] []) := steps_upTo_nil
  refine relocates_fueled fun fuel => ?_
  induction fuel with
  | zero => exact transports_pastEnd
  | succ fuel ih =>
    have hatEnd : m.Relocates id atEnd :=
      (transports_peek hs).bind fun t => transports_pure (by rw [m.kind_token]; rfl)
    refine hatEnd.bind fun b => ?_
    rw [id]
    split
    · exact transports_pure rfl
    · refine (statement_relocates fuel).1.bind fun first => ih.bind fun rest => transports_pure ?_
      cases first with
      | none => rfl
      | some s => rfl

/-- Relocated tokens are parsed to the relocated program, with complaints about the relocated tokens. -/
theorem program_cursor (m : Relocation) (c : Cursor) :
    program (m.cursor c) = ⟨m.result m.stmts (program c).result, m.cursor (program c).cursor,
      (program c).complaints.map m.complaint⟩ := by
  obtain ⟨hresult, hstopped, hpassed, hcomplaints⟩ :=
    program_relocates c (m.cursor c) (upTo_nil_iff.mpr rfl)
  have hcursor : (program (m.cursor c)).cursor = m.cursor (program c).cursor := by
    cases hr : (program c).result with
    | ok ss => exact upTo_nil_iff.mp (hpassed ss hr)
    | error s => exact upTo_nil_iff.mp (hstopped s hr)
  rw [← hresult, ← hcursor, ← hcomplaints]

end LoxLang.Grammar
