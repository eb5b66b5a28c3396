import Mathlib.Data.List.Forall2
import LoxLang.Proofs.Grammar.Motion

/-!
Derivations of the grammar, as data: one constructor for each alternative of a rule.

    declarations -> declaration*
    declaration  -> "var" IDENTIFIER ( "=" expression )? ";" | statement
    statement    -> "print" expression ";" | "{" declarations "}" | expression ";"
    expression   -> assignment
    assignment   -> IDENTIFIER "=" assignment | equality
    equality     -> comparison ( ( "!=" | "==" ) comparison )*
    comparison   -> term ( ( ">" | ">=" | "<" | "<=" ) term )*
    term         -> factor ( ( "-" | "+" ) factor )*
    factor       -> unary ( ( "/" | "*" ) unary )*
    unary        -> ( "!" | "-" ) unary | primary
    primary      -> NUMBER | STRING | "true" | "false" | "nil" | IDENTIFIER | "(" expression ")"

A derivation has a yield, the tokens that it derives, and a tree, in which operators of one level
stand to the left of each other.
-/
namespace LoxLang.Grammar

/-- The symbols of the grammar. The operand of a level is the next tighter level or unary, and the
repetition in the rule of a level is a symbol of its own, as is the one of declarations. -/
inductive Symbol where
  | declarations | declaration | statement | expression | assignment
  | level (l : Level) | operand (l : Level) | chain (l : Level) | unary | primary

/-- A token of one of the given kinds. -/
@[ext] structure Terminal (kinds : List TokenKind) where
  token : Token
  kind_mem : token.kind ∈ kinds

/-- The kinds of the tokens that stand for a value. -/
def literalKinds : List TokenKind :=
  [.number, .string, .trueWord, .falseWord, .nilWord]

/-- The value that such a token stands for. -/
def literalValue (t : Token) : Value :=
  match t.kind with
  | .trueWord => .bool true
  | .falseWord => .bool false
  | .nilWord => .nil
  | _ => t.literal

/-- The operators in the rule of a level. -/
def Level.terminals : Level → List TokenKind
  | .equality => [.bangEqual, .equalEqual]
  | .comparison => [.greater, .greaterEqual, .less, .lessEqual]
  | .term => [.minus, .plus]
  | .factor => [.slash, .star]

/-- The operands in the rule of the first level are of the second level. -/
inductive Level.Above : Level → Level → Prop
  | equality : Above .equality .comparison
  | comparison : Above .comparison .term
  | term : Above .term .factor

/-! The tables of the parser are those of the grammar. -/

theorem Level.operators_eq_terminals (l : Level) : l.operators = l.terminals := by
  cases l <;> rfl

theorem Level.mem_terminals_iff {l : Level} {kind : TokenKind} :
    kind ∈ l.terminals ↔ kind ∈ l.operators := by
  rw [l.operators_eq_terminals]

theorem Level.tighter_eq_some_iff {l l' : Level} : l.tighter = some l' ↔ l.Above l' := by
  constructor
  · intro h
    cases l <;> cases h
    · exact .equality
    · exact .comparison
    · exact .term
  · rintro (_ | _ | _) <;> rfl

theorem Level.tighter_eq_none_iff {l : Level} : l.tighter = none ↔ l = .factor := by
  cases l <;> simp [Level.tighter]

inductive Derivation : Symbol → Type where
  | nil : Derivation .declarations
  | cons (first : Derivation .declaration) (rest : Derivation .declarations) :
      Derivation .declarations
  | var (word : Terminal [.varWord]) (name : Terminal [.identifier])
      (semicolon : Terminal [.semicolon]) : Derivation .declaration
  | varWith (word : Terminal [.varWord]) (name : Terminal [.identifier])
      (equals : Terminal [.equal]) (value : Derivation .expression)
      (semicolon : Terminal [.semicolon]) : Derivation .declaration
  | statement (s : Derivation .statement) : Derivation .declaration
  | print (word : Terminal [.printWord]) (value : Derivation .expression)
      (semicolon : Terminal [.semicolon]) : Derivation .statement
  | block (left : Terminal [.leftBrace]) (body : Derivation .declarations)
      (right : Terminal [.rightBrace]) : Derivation .statement
  | expressionStatement (value : Derivation .expression) (semicolon : Terminal [.semicolon]) :
      Derivation .statement
  | expression (a : Derivation .assignment) : Derivation .expression
  | assign (name : Terminal [.identifier]) (equals : Terminal [.equal])
      (value : Derivation .assignment) : Derivation .assignment
  | equality (e : Derivation (.level .equality)) : Derivation .assignment
  | level {l : Level} (first : Derivation (.operand l)) (rest : Derivation (.chain l)) :
      Derivation (.level l)
  | tighter {l l' : Level} (h : l.Above l') (e : Derivation (.level l')) : Derivation (.operand l)
  | tightest (e : Derivation .unary) : Derivation (.operand .factor)
  | chainEnd {l : Level} : Derivation (.chain l)
  | chainStep {l : Level} (operator : Terminal l.terminals) (right : Derivation (.operand l))
      (rest : Derivation (.chain l)) : Derivation (.chain l)
  | unary (operator : Terminal [.bang, .minus]) (right : Derivation .unary) : Derivation .unary
  | primary (e : Derivation .primary) : Derivation .unary
  | literal (t : Terminal literalKinds) : Derivation .primary
  | identifier (t : Terminal [.identifier]) : Derivation .primary
  | grouping (left : Terminal [.leftParen]) (inner : Derivation .expression)
      (right : Terminal [.rightParen]) : Derivation .primary

/-- What a symbol stands for in a tree; a chain is applied to the operand in front of it. -/
def Symbol.Tree : Symbol → Type
  | .declarations => List Stmt
  | .declaration | .statement => Stmt
  | .chain _ => Expr → Expr
  | _ => Expr

namespace Derivation

/-- The tokens that a derivation derives, in order. -/
def yield : {s : Symbol} → Derivation s → List Token
  | _, .nil => []
  | _, .cons first rest => first.yield ++ rest.yield
  | _, .var word name semicolon => [word.token, name.token, semicolon.token]
  | _, .varWith word name equals value semicolon =>
    word.token :: name.token :: equals.token :: (value.yield ++ [semicolon.token])
  | _, .statement s => s.yield
  | _, .print word value semicolon => word.token :: (value.yield ++ [semicolon.token])
  | _, .block left body right => left.token :: (body.yield ++ [right.token])
  | _, .expressionStatement value semicolon => value.yield ++ [semicolon.token]
  | _, .expression a => a.yield
  | _, .assign name equals value => name.token :: equals.token :: value.yield
  | _, .equality e => e.yield
  | _, .level first rest => first.yield ++ rest.yield
  | _, .tighter _ e => e.yield
  | _, .tightest e => e.yield
  | _, .chainEnd => []
  | _, .chainStep operator right rest => operator.token :: (right.yield ++ rest.yield)
  | _, .unary operator right => operator.token :: right.yield
  | _, .primary e => e.yield
  | _, .literal t => [t.token]
  | _, .identifier t => [t.token]
  | _, .grouping left inner right => left.token :: (inner.yield ++ [right.token])

/-- The tree of a derivation. -/
def tree : {s : Symbol} → Derivation s → s.Tree
  | _, .nil => []
  | _, .cons first rest => first.tree :: rest.tree
  | _, .var _ name _ => .var name.token none
  | _, .varWith _ name _ value _ => .var name.token (some value.tree)
  | _, .statement s => s.tree
  | _, .print _ value _ => .print value.tree
  | _, .block _ body _ => .block body.tree
  | _, .expressionStatement value _ => .expression value.tree
  | _, .expression a => a.tree
  | _, .assign name _ value => .assign name.token value.tree
  | _, .equality e => e.tree
  | _, .level first rest => rest.tree first.tree
  | _, .tighter _ e => e.tree
  | _, .tightest e => e.tree
  | _, .chainEnd => fun left => left
  | _, .chainStep operator right rest => fun left =>
    rest.tree (.binary left operator.token right.tree)
  | _, .unary operator right => .unary operator.token right.tree
  | _, .primary e => e.tree
  | _, .literal t => .literal (literalValue t.token)
  | _, .identifier t => .variable t.token
  | _, .grouping _ inner _ => .grouping inner.tree

end Derivation

/-- A token of a program as a tree shows it: itself, by the mark that its place calls for, or by the
value that it stands for. -/
inductive Piece where
  | token (t : Token)
  | mark (kind : TokenKind)
  | constant (v : Value)

def Piece.Fits : Piece → Token → Prop
  | .token t, u => u = t
  | .mark kind, u => u.kind = kind
  | .constant v, u => u.kind ∈ literalKinds ∧ literalValue u = v

end LoxLang.Grammar

namespace LoxLang

open Grammar

/-- The tokens of an expression, in order. -/
def Expr.pieces : Expr → List Piece
  | .literal value => [.constant value]
  | .grouping inner => .mark .leftParen :: (inner.pieces ++ [.mark .rightParen])
  | .unary operator right => .token operator :: right.pieces
  | .binary left operator right => left.pieces ++ .token operator :: right.pieces
  | .variable name => [.token name]
  | .assign name value => .token name :: .mark .equal :: value.pieces

mutual

/-- The tokens of a statement, in order. -/
def Stmt.pieces : Stmt → List Piece
  | .expression e => e.pieces ++ [.mark .semicolon]
  | .print e => .mark .printWord :: (e.pieces ++ [.mark .semicolon])
  | .var name none => [.mark .varWord, .token name, .mark .semicolon]
  | .var name (some e) =>
    .mark .varWord :: .token name :: .mark .equal :: (e.pieces ++ [.mark .semicolon])
  | .block body => .mark .leftBrace :: (Stmt.allPieces body ++ [.mark .rightBrace])

def Stmt.allPieces : List Stmt → List Piece
  | [] => []
  | s :: ss => s.pieces ++ Stmt.allPieces ss

end

end LoxLang

namespace LoxLang.Grammar

/-- What the tree of a derivation shows of the tokens. -/
def Derivation.Shows : {s : Symbol} → Derivation s → Prop
  | .declarations, d => List.Forall₂ Piece.Fits (Stmt.allPieces d.tree) d.yield
  | .declaration, d | .statement, d => List.Forall₂ Piece.Fits (Stmt.pieces d.tree) d.yield
  | .chain _, d => ∀ left us, List.Forall₂ Piece.Fits (Expr.pieces left) us →
      List.Forall₂ Piece.Fits (Expr.pieces (d.tree left)) (us ++ d.yield)
  | .expression, d | .assignment, d | .level _, d | .operand _, d | .unary, d | .primary, d =>
    List.Forall₂ Piece.Fits (Expr.pieces d.tree) d.yield

private theorem fits_append {ps qs : List Piece} {us vs : List Token}
    (h : List.Forall₂ Piece.Fits ps us) (h' : List.Forall₂ Piece.Fits qs vs) :
    List.Forall₂ Piece.Fits (ps ++ qs) (us ++ vs) :=
  List.rel_append h h'

private theorem fits_mark {kind : TokenKind} (t : Terminal [kind]) :
    Piece.Fits (.mark kind) t.token :=
  List.mem_singleton.mp t.kind_mem

private theorem fits_token (t : Token) : Piece.Fits (.token t) t :=
  rfl

private theorem fits_last {kind : TokenKind} {ps : List Piece} {us : List Token}
    (h : List.Forall₂ Piece.Fits ps us) (t : Terminal [kind]) :
    List.Forall₂ Piece.Fits (ps ++ [.mark kind]) (us ++ [t.token]) :=
  fits_append h (.cons (fits_mark t) .nil)

/-- Read in order, the tree of a derivation gives the tokens that it derives. -/
theorem Derivation.shows {s : Symbol} (d : Derivation s) : d.Shows := by
  induction d with
  | nil => exact .nil
  | cons first rest hf hr => exact fits_append hf hr
  | var word name semicolon =>
    exact .cons (fits_mark word) (.cons (fits_token _) (.cons (fits_mark semicolon) .nil))
  | varWith word name equals value semicolon hv =>
    exact .cons (fits_mark word) (.cons (fits_token _) (.cons (fits_mark equals)
      (fits_last hv semicolon)))
  | statement s hs => exact hs
  | print word value semicolon hv => exact .cons (fits_mark word) (fits_last hv semicolon)
  | block left body right hb => exact .cons (fits_mark left) (fits_last hb right)
  | expressionStatement value semicolon hv => exact fits_last hv semicolon
  | expression a ha => exact ha
  | assign name equals value hv => exact .cons (fits_token _) (.cons (fits_mark equals) hv)
  | equality e he => exact he
  | level first rest hf hr => exact hr _ _ hf
  | tighter h e he => exact he
  | tightest e he => exact he
  | chainEnd =>
    intro left us hl
    simpa [tree, yield] using hl
  | chainStep operator right rest hright hrest =>
    intro left us hl
    have hb := hrest (.binary left operator.token right.tree) _
      (fits_append hl (.cons (fits_token operator.token) hright))
    simpa [tree, yield] using hb
  | unary operator right hr => exact .cons (fits_token _) hr
  | primary e he => exact he
  | literal t => exact .cons ⟨t.kind_mem, rfl⟩ .nil
  | identifier t => exact .cons (fits_token _) .nil
  | grouping left inner right hi => exact .cons (fits_mark left) (fits_last hi right)

/-- The kinds of the first token of what a symbol derives; repetitions may derive nothing. -/
def Symbol.first : Symbol → List TokenKind
  | .primary => literalKinds ++ [.identifier, .leftParen]
  | .unary | .operand _ | .level _ | .assignment | .expression =>
    [.bang, .minus] ++ (literalKinds ++ [.identifier, .leftParen])
  | .statement =>
    [.printWord, .leftBrace] ++ ([.bang, .minus] ++ (literalKinds ++ [.identifier, .leftParen]))
  | .declaration =>
    .varWord :: ([.printWord, .leftBrace] ++
      ([.bang, .minus] ++ (literalKinds ++ [.identifier, .leftParen])))
  | .declarations | .chain _ => []

def Derivation.Starts {s : Symbol} (d : Derivation s) : Prop :=
  s.first ≠ [] → ∃ t rest, d.yield = t :: rest ∧ t.kind ∈ s.first

theorem Derivation.starts {s : Symbol} (d : Derivation s) : d.Starts := by
  induction d with
  | nil => exact fun h => absurd rfl h
  | cons => exact fun h => absurd rfl h
  | chainEnd => exact fun h => absurd rfl h
  | chainStep => exact fun h => absurd rfl h
  | var word name semicolon =>
    have hw := word.kind_mem
    exact fun _ => ⟨_, _, rfl, List.mem_cons.mpr (.inl (List.mem_singleton.mp hw))⟩
  | varWith word name equals value semicolon =>
    have hw := word.kind_mem
    exact fun _ => ⟨_, _, rfl, List.mem_cons.mpr (.inl (List.mem_singleton.mp hw))⟩
  | statement s hs =>
    obtain ⟨t, rest, hy, ht⟩ := hs (by simp [Symbol.first])
    exact fun _ => ⟨t, rest, hy, List.mem_cons_of_mem _ ht⟩
  | print word value semicolon =>
    have hw := word.kind_mem
    exact fun _ => ⟨_, _, rfl, List.mem_append_left _ (by simp_all)⟩
  | block left body right =>
    have hl := left.kind_mem
    exact fun _ => ⟨_, _, rfl, List.mem_append_left _ (by simp_all)⟩
  | expressionStatement value semicolon hv =>
    obtain ⟨t, rest, hy, ht⟩ := hv (by simp [Symbol.first])
    exact fun _ => ⟨t, rest ++ [semicolon.token], by simp [yield, hy], List.mem_append_right _ ht⟩
  | expression a ha => exact ha
  | assign name equals value =>
    have hn := name.kind_mem
    exact fun _ => ⟨_, _, rfl, by simp_all [Symbol.first]⟩
  | equality e he => exact he
  | level first rest hf =>
    obtain ⟨t, ts, hy, ht⟩ := hf (by simp [Symbol.first])
    exact fun _ => ⟨t, ts ++ rest.yield, by simp [yield, hy], ht⟩
  | tighter h e he => exact he
  | tightest e he => exact he
  | unary operator right =>
    exact fun _ => ⟨_, _, rfl, List.mem_append_left _ operator.kind_mem⟩
  | primary e he =>
    obtain ⟨t, rest, hy, ht⟩ := he (by simp [Symbol.first])
    exact fun _ => ⟨t, rest, hy, List.mem_append_right _ ht⟩
  | literal t => exact fun _ => ⟨_, _, rfl, List.mem_append_left _ t.kind_mem⟩
  | identifier t =>
    have ht := t.kind_mem
    exact fun _ => ⟨_, _, rfl, List.mem_append_right _ (by simp_all)⟩
  | grouping left inner right =>
    have hl := left.kind_mem
    exact fun _ => ⟨_, _, rfl, List.mem_append_right _ (by simp_all)⟩

end LoxLang.Grammar
