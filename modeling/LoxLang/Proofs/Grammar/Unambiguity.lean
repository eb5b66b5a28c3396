import LoxLang.Proofs.Grammar.Completeness

/-!
The grammar is unambiguous: as the parser of a symbol has one outcome, two derivations of one text
take the same tokens part by part.
-/
namespace LoxLang.Grammar

variable {α : Type}

/-- A parser that reads two beginnings of one text reads the same in both. -/
theorem Reads.unique {p : Nat → Parse α} {w w' r r' : List Token} {a a' : α} (h : Reads p w r a)
    (h' : Reads p w' r' a') (he : w ++ r = w' ++ r') : w = w' ∧ r = r' := by
  obtain ⟨m, hm⟩ := h
  obtain ⟨n, hn⟩ := h'
  have hl := hm (max m n) (Nat.le_max_left m n) 0
  rw [he, hn (max m n) (Nat.le_max_right m n) 0] at hl
  have hr : r = r' := (congrArg (fun o : Outcome α => o.cursor.ahead) hl).symm
  subst hr
  exact ⟨List.append_cancel_right he, rfl⟩

namespace Derivation

private def endMarker : Token :=
  ⟨.eof, "", .nil, 0⟩

private theorem hasEnd_append_endMarker (w : List Token) : HasEnd (w ++ [endMarker]) :=
  HasEnd.append ⟨endMarker, by simp, rfl⟩ w

private theorem stops_endMarker {kinds : List TokenKind} (h : .eof ∉ kinds) :
    Stops kinds [endMarker] :=
  ⟨_, _, rfl, h⟩

private theorem append_endMarker {u v u' v' : List Token} (h : u ++ v = u' ++ v') :
    u ++ (v ++ [endMarker]) = u' ++ (v' ++ [endMarker]) := by
  rw [← List.append_assoc, h, List.append_assoc]

/-- No derivation from the symbol starts with a token of another kind than those of `first`. -/
private theorem false_of_first_append {s : Symbol} (d : Derivation s) {t : Token} {w r : List Token}
    (h : t :: w = d.yield ++ r) {kinds : List TokenKind} (ht : t.kind ∈ kinds) (hs : s.first ≠ [])
    (hk : ∀ k ∈ kinds, k ∉ s.first) : False := by
  obtain ⟨t', w', hw, ht'⟩ := d.starts hs
  rw [hw] at h
  cases h
  exact hk _ ht ht'

private theorem false_of_first {s : Symbol} (d : Derivation s) {t : Token} {w : List Token}
    (h : t :: w = d.yield) {kinds : List TokenKind} (ht : t.kind ∈ kinds) (hs : s.first ≠ [])
    (hk : ∀ k ∈ kinds, k ∉ s.first) : False :=
  d.false_of_first_append (r := []) (by rw [h, List.append_nil]) ht hs hk

private theorem false_of_token_eq {kinds kinds' : List TokenKind} (t : Terminal kinds)
    (t' : Terminal kinds') (h : t.token = t'.token) (hk : ∀ k ∈ kinds, k ∉ kinds') : False :=
  hk _ t.kind_mem (h ▸ t'.kind_mem)

private theorem eof_not_mem_loops (l : Level) : .eof ∉ l.loops := by
  cases l <;> decide

/-- A name in front of an equals sign is all that an equality takes of an assignment. -/
private theorem false_of_assignment (e : Derivation (.level .equality)) (name : Terminal [.identifier])
    (equals : Terminal [.equal]) {w : List Token} (h : name.token :: equals.token :: w = e.yield) :
    False := by
  have hname := reads_level_identifier (List.mem_singleton.mp name.kind_mem)
    (r := equals.token :: (w ++ [endMarker]))
    ⟨_, _, rfl, by rw [List.mem_singleton.mp equals.kind_mem]; decide⟩
  have hu := hname.unique (e.read _ (stops_endMarker (eof_not_mem_loops .equality))) (by simp [← h])
  simpa using congrArg List.length hu.2

/-! Where a text is divided: its parts are read by the parsers of their symbols. -/

private theorem yield_cons_inj {first first' : Derivation .declaration}
    {rest rest' : Derivation .declarations}
    (h : first.yield ++ rest.yield = first'.yield ++ rest'.yield) :
    first.yield = first'.yield ∧ rest.yield = rest'.yield := by
  obtain ⟨hfirst, hrest⟩ := (first.read _ (hasEnd_append_endMarker rest.yield)).unique
    (first'.read _ (hasEnd_append_endMarker rest'.yield)) (append_endMarker h)
  exact ⟨hfirst, List.append_cancel_right hrest⟩

private theorem yield_operand_inj {l : Level} {first first' : Derivation (.operand l)}
    {rest rest' : Derivation (.chain l)}
    (h : first.yield ++ rest.yield = first'.yield ++ rest'.yield) :
    first.yield = first'.yield ∧ rest.yield = rest'.yield := by
  have hend := stops_endMarker (eof_not_mem_loops l)
  obtain ⟨hfirst, hrest⟩ := (first.read _ (rest.stops_chain hend)).unique
    (first'.read _ (rest'.stops_chain hend)) (append_endMarker h)
  exact ⟨hfirst, List.append_cancel_right hrest⟩

private theorem last_inj {kinds : List TokenKind} {t t' : Terminal kinds} {u u' : List Token}
    (h : u ++ [t.token] = u' ++ [t'.token]) : u = u' ∧ t = t' := by
  obtain ⟨hu, ht⟩ := List.append_inj' h rfl
  exact ⟨hu, Terminal.ext (List.cons.inj ht).1⟩

/-- No other derivation from the symbol derives the same text. -/
def Unique {s : Symbol} (d : Derivation s) : Prop :=
  ∀ d' : Derivation s, d.yield = d'.yield → d = d'

theorem unique_nil : nil.Unique
  | .nil, _ => rfl
  | .cons first rest, h => by
    obtain ⟨t, w, hw, -⟩ := first.starts (by simp [Symbol.first])
    simp [yield, hw] at h

theorem Unique.cons {first : Derivation .declaration} {rest : Derivation .declarations}
    (hf : first.Unique) (hr : rest.Unique) : (cons first rest).Unique
  | .nil, h => by
    obtain ⟨t, w, hw, -⟩ := first.starts (by simp [Symbol.first])
    simp [yield, hw] at h
  | .cons first' rest', h => by
    obtain ⟨hfirst, hrest⟩ := yield_cons_inj h
    rw [hf first' hfirst, hr rest' hrest]

theorem unique_var (word : Terminal [.varWord]) (name : Terminal [.identifier])
    (semicolon : Terminal [.semicolon]) : (var word name semicolon).Unique
  | .var word' name' semicolon', h => by
    simp only [yield, List.cons.injEq, and_true] at h
    obtain ⟨hword, hname, hsemicolon⟩ := h
    rw [Terminal.ext hword, Terminal.ext hname, Terminal.ext hsemicolon]
  | .varWith .., h => by simp [yield] at h
  | .statement s, h =>
    (s.false_of_first h word.kind_mem (by simp [Symbol.first]) (by decide)).elim

theorem Unique.varWith (word : Terminal [.varWord]) (name : Terminal [.identifier])
    (equals : Terminal [.equal]) {value : Derivation .expression} (hv : value.Unique)
    (semicolon : Terminal [.semicolon]) : (varWith word name equals value semicolon).Unique
  | .var .., h => by simp [yield] at h
  | .varWith word' name' equals' value' semicolon', h => by
    simp only [yield, List.cons.injEq] at h
    obtain ⟨hword, hname, hequals, hrest⟩ := h
    obtain ⟨hvalue, rfl⟩ := last_inj hrest
    rw [Terminal.ext hword, Terminal.ext hname, Terminal.ext hequals, hv value' hvalue]
  | .statement s, h =>
    (s.false_of_first h word.kind_mem (by simp [Symbol.first]) (by decide)).elim

theorem Unique.statement {s : Derivation .statement} (hs : s.Unique) : (statement s).Unique
  | .var word' _ _, h | .varWith word' .., h =>
    (s.false_of_first h.symm word'.kind_mem (by simp [Symbol.first]) (by decide)).elim
  | .statement s', h => congrArg Derivation.statement (hs s' h)

theorem Unique.print (word : Terminal [.printWord]) {value : Derivation .expression}
    (hv : value.Unique) (semicolon : Terminal [.semicolon]) : (print word value semicolon).Unique
  | .print word' value' semicolon', h => by
    simp only [yield, List.cons.injEq] at h
    obtain ⟨hword, hrest⟩ := h
    obtain ⟨hvalue, rfl⟩ := last_inj hrest
    rw [Terminal.ext hword, hv value' hvalue]
  | .block left' _ _, h => (false_of_token_eq word left' (List.cons.inj h).1 (by decide)).elim
  | .expressionStatement value' _, h =>
    (value'.false_of_first_append h word.kind_mem (by simp [Symbol.first]) (by decide)).elim

theorem Unique.block (left : Terminal [.leftBrace]) {body : Derivation .declarations}
    (hb : body.Unique) (right : Terminal [.rightBrace]) : (block left body right).Unique
  | .print word' _ _, h => (false_of_token_eq left word' (List.cons.inj h).1 (by decide)).elim
  | .block left' body' right', h => by
    simp only [yield, List.cons.injEq] at h
    obtain ⟨hleft, hrest⟩ := h
    obtain ⟨hbody, rfl⟩ := last_inj hrest
    rw [Terminal.ext hleft, hb body' hbody]
  | .expressionStatement value' _, h =>
    (value'.false_of_first_append h left.kind_mem (by simp [Symbol.first]) (by decide)).elim

theorem Unique.expressionStatement {value : Derivation .expression} (hv : value.Unique)
    (semicolon : Terminal [.semicolon]) : (expressionStatement value semicolon).Unique
  | .print word' _ _, h =>
    (value.false_of_first_append h.symm word'.kind_mem (by simp [Symbol.first]) (by decide)).elim
  | .block left' _ _, h =>
    (value.false_of_first_append h.symm left'.kind_mem (by simp [Symbol.first]) (by decide)).elim
  | .expressionStatement value' semicolon', h => by
    obtain ⟨hvalue, rfl⟩ := last_inj h
    rw [hv value' hvalue]

theorem Unique.assign (name : Terminal [.identifier]) (equals : Terminal [.equal])
    {value : Derivation .assignment} (hv : value.Unique) : (assign name equals value).Unique
  | .assign name' equals' value', h => by
    simp only [yield, List.cons.injEq] at h
    obtain ⟨hname, hequals, hvalue⟩ := h
    rw [Terminal.ext hname, Terminal.ext hequals, hv value' hvalue]
  | .equality e', h => (e'.false_of_assignment name equals h).elim

theorem Unique.equality {e : Derivation (.level .equality)} (he : e.Unique) : (equality e).Unique
  | .assign name' equals' _, h => (e.false_of_assignment name' equals' h.symm).elim
  | .equality e', h => congrArg Derivation.equality (he e' h)

/-- The operands of a level are of one level only. -/
theorem Unique.tighter {l l' : Level} (hl : l.Above l') {e : Derivation (.level l')}
    (he : e.Unique) : (tighter hl e).Unique := by
  intro d' h
  cases hl <;> cases d' with
  | tighter hl' e' =>
    cases hl'
    exact congrArg (Derivation.tighter _) (he e' h)

theorem Unique.tightest {e : Derivation .unary} (he : e.Unique) : (tightest e).Unique
  | .tightest e', h => congrArg Derivation.tightest (he e' h)

theorem Unique.chainStep {l : Level} (operator : Terminal l.terminals)
    {right : Derivation (.operand l)} {rest : Derivation (.chain l)} (hright : right.Unique)
    (hrest : rest.Unique) : (chainStep operator right rest).Unique
  | .chainStep operator' right' rest', h => by
    simp only [yield, List.cons.injEq] at h
    obtain ⟨hoperator, hparts⟩ := h
    obtain ⟨hfirst, hlast⟩ := yield_operand_inj hparts
    rw [Terminal.ext hoperator, hright right' hfirst, hrest rest' hlast]

theorem Unique.unary (operator : Terminal [.bang, .minus]) {right : Derivation .unary}
    (hr : right.Unique) : (unary operator right).Unique
  | .unary operator' right', h => by
    simp only [yield, List.cons.injEq] at h
    obtain ⟨hoperator, hright⟩ := h
    rw [Terminal.ext hoperator, hr right' hright]
  | .primary e', h =>
    (e'.false_of_first h operator.kind_mem (by simp [Symbol.first]) (by decide)).elim

theorem Unique.primary {e : Derivation .primary} (he : e.Unique) : (primary e).Unique
  | .unary operator' _, h =>
    (e.false_of_first h.symm operator'.kind_mem (by simp [Symbol.first]) (by decide)).elim
  | .primary e', h => congrArg Derivation.primary (he e' h)

theorem unique_literal (t : Terminal literalKinds) : (literal t).Unique
  | .literal _, h => congrArg literal (Terminal.ext (List.cons.inj h).1)
  | .identifier t', h => (false_of_token_eq t t' (List.cons.inj h).1 (by decide)).elim
  | .grouping left' _ _, h => (false_of_token_eq t left' (List.cons.inj h).1 (by decide)).elim

theorem unique_identifier (t : Terminal [.identifier]) : (identifier t).Unique
  | .literal t', h => (false_of_token_eq t t' (List.cons.inj h).1 (by decide)).elim
  | .identifier _, h => congrArg identifier (Terminal.ext (List.cons.inj h).1)
  | .grouping left' _ _, h => (false_of_token_eq t left' (List.cons.inj h).1 (by decide)).elim

theorem Unique.grouping (left : Terminal [.leftParen]) {inner : Derivation .expression}
    (hi : inner.Unique) (right : Terminal [.rightParen]) : (grouping left inner right).Unique
  | .literal t', h | .identifier t', h =>
    (false_of_token_eq left t' (List.cons.inj h).1 (by decide)).elim
  | .grouping left' inner' right', h => by
    simp only [yield, List.cons.injEq] at h
    obtain ⟨hleft, hrest⟩ := h
    obtain ⟨hinner, rfl⟩ := last_inj hrest
    rw [Terminal.ext hleft, hi inner' hinner]

theorem unique {s : Symbol} (d : Derivation s) : d.Unique := by
  induction d with
  | nil => exact unique_nil
  | cons first rest hf hr => exact hf.cons hr
  | var word name semicolon => exact unique_var word name semicolon
  | varWith word name equals value semicolon hv => exact .varWith word name equals hv semicolon
  | statement s hs => exact hs.statement
  | print word value semicolon hv => exact .print word hv semicolon
  | block left body right hb => exact .block left hb right
  | expressionStatement value semicolon hv => exact hv.expressionStatement semicolon
  | expression a ha =>
    intro d' h
    cases d' with
    | expression a' => rw [ha a' h]
  | assign name equals value hv => exact .assign name equals hv
  | equality e he => exact he.equality
  | level first rest hf hr =>
    intro d' h
    cases d' with
    | level first' rest' =>
      obtain ⟨hfirst, hrest⟩ := yield_operand_inj h
      rw [hf first' hfirst, hr rest' hrest]
  | tighter hl e he => exact he.tighter hl
  | tightest e he => exact he.tightest
  | chainEnd =>
    intro d' h
    cases d' with
    | chainEnd => rfl
    | chainStep => cases h
  | chainStep operator right rest hright hrest => exact hright.chainStep operator hrest
  | unary operator right hr => exact .unary operator hr
  | primary e he => exact he.primary
  | literal t => exact unique_literal t
  | identifier t => exact unique_identifier t
  | grouping left inner right hi => exact .grouping left hi right

/-- A text has at most one derivation from a symbol. -/
theorem eq_of_yield_eq {s : Symbol} (d d' : Derivation s) (h : d.yield = d'.yield) : d = d' :=
  d.unique d' h

end Derivation

end LoxLang.Grammar
