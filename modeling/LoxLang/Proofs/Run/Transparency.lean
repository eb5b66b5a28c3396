import LoxLang.Proofs.Run.Piecewise

/-!
Blocks that declare nothing. The scope that such a block opens stays empty, and an empty scope cannot
be seen, wherever it stands in a chain: names are looked up and assigned to behind it. So the
statements of the block do what they would do without it.
-/
namespace LoxLang

/-- The first chain is the second one with an empty scope behind the `n` innermost ones. -/
inductive Chain.Padded : Nat → Chain → Chain → Prop
  | here (outer : Chain) : Padded 0 ({} :: outer) outer
  | under {n : Nat} {chain chain' : Chain} (s : Scope) (h : Padded n chain chain') :
    Padded (n + 1) (s :: chain) (s :: chain')

namespace Chain.Padded

variable {n : Nat} {chain chain' : Chain}

theorem find?_eq (h : Padded n chain chain') (name : Value) : chain.find? name = chain'.find? name := by
  induction h with
  | here outer => rfl
  | under s _ ih =>
    unfold Chain.find? at ih ⊢
    rw [List.findSome?_cons, List.findSome?_cons, ih]

/-- An assignment finds its scope in both chains or in none. -/
theorem assign? (h : Padded n chain chain') (name value : Value) :
    Option.Rel (Padded n) (chain.assign? name value) (chain'.assign? name value) := by
  induction h with
  | here outer =>
    have hempty : Chain.assign? name value ({} :: outer) = (outer.assign? name value).map ({} :: ·) := rfl
    rw [hempty]
    cases outer.assign? name value with
    | none => exact .none
    | some outer' => exact .some (.here outer')
  | @under n chain chain' s h ih =>
    rw [Chain.assign?, Chain.assign?]
    split
    · exact .some (.under _ h)
    · generalize chain.assign? name value = found at ih
      generalize chain'.assign? name value = found' at ih
      cases ih with
      | none => exact .none
      | some hrel => exact .some (.under s hrel)

theorem define (h : Padded (n + 1) chain chain') (name value : Value) :
    Padded (n + 1) (chain.define name value) (chain'.define name value) := by
  cases h with
  | under s h => exact .under (s.insert name value) h

theorem tail (h : Padded (n + 1) chain chain') : Padded n chain.tail chain'.tail := by
  cases h with
  | under s h => exact h

theorem tail_eq (h : Padded 0 chain chain') : chain.tail = chain' := by
  cases h with
  | here outer => rfl

end Chain.Padded

end LoxLang

namespace LoxLang.Run

variable {α β : Type} {n : Nat} {R : Chain → Chain → Prop}

/-- The scopes of the worlds are in the relation, the same text has been printed and the same events
are due. -/
structure World.Matches (R : Chain → Chain → Prop) (w w' : World) : Prop where
  chain : R w.chain w'.chain
  written : written w.events = written w'.events
  shows : w.trace.shows = w'.trace.shows

theorem World.Matches.withChain {R' : Chain → Chain → Prop} {w w' : World} (h : Matches R w w')
    {chain chain' : Chain} (hchain : R' chain chain') :
    Matches R' { w with chain } { w' with chain := chain' } :=
  ⟨hchain, h.written, h.shows⟩

theorem matches_happen {w w' : World} (h : World.Matches R w w') (e : Event) :
    (happen e w).1 = (happen e w').1 ∧ World.Matches R (happen e w).2 (happen e w').2 := by
  obtain ⟨u, u', hu, hu', hshows, -⟩ | ⟨r, hr, hr', -⟩ := Trace.write_same h.shows e
  · rw [happen_of_ok hu, happen_of_ok hu']
    refine ⟨rfl, h.chain, ?_, hshows⟩
    rw [written_push, written_push, h.written]
  · rw [happen_of_error hr, happen_of_error hr']
    exact ⟨rfl, h⟩

/-- An event that prints nothing, and whose line is whole, only adds to the trace. -/
theorem silent_happen {e : Event} (houtput : e.output = "") (hwhole : e.text.isWhole) (w : World) :
    (happen e w).1 = .ok () ∧ World.Matches Eq (happen e w).2 w := by
  obtain ⟨u, hu, hshows⟩ := Trace.write_ok (t := w.trace) fun _ => hwhole
  rw [happen_of_ok hu]
  exact ⟨rfl, rfl, written_push_of_silent w.events houtput, hshows⟩

/-- The computation does the same with an empty scope behind the `n` innermost ones as without it. -/
def Blind (n : Nat) (m : Exec α) : Prop :=
  ∀ w w', World.Matches (Chain.Padded n) w w' →
    (m w).1 = (m w').1 ∧ World.Matches (Chain.Padded n) (m w).2 (m w').2

theorem Blind.bind {m : Exec α} {f : α → Exec β} (hm : Blind n m) (hf : ∀ a, Blind n (f a)) :
    Blind n (m >>= f) := by
  intro w w' h
  obtain ⟨hresult, hworld⟩ := hm w w' h
  rw [bind_apply, bind_apply]
  generalize m w = final at hresult hworld
  generalize m w' = final' at hresult hworld
  obtain ⟨result, w₁⟩ := final
  obtain ⟨result', w₁'⟩ := final'
  cases hresult
  cases result with
  | error fault => exact ⟨rfl, hworld⟩
  | ok a => exact hf a w₁ w₁' hworld

theorem blind_ofExcept (x : Except Fault α) : Blind n (ofExcept x) :=
  fun _ _ h => ⟨rfl, h⟩

theorem blind_pure (a : α) : Blind n (pure a : Exec α) :=
  blind_ofExcept (.ok a)

theorem blind_happen (e : Event) : Blind n (happen e) :=
  fun _ _ h => matches_happen h e

theorem blind_lookup (t : Token) : Blind n (lookup t.toValue) := by
  intro w w' h
  rw [lookup_apply, lookup_apply, h.chain.find?_eq]
  cases w'.chain.find? (.string t.lexeme) with
  | some v => exact ⟨rfl, h⟩
  | none => exact ⟨rfl, h⟩

theorem blind_assign (t : Token) (v : Value) : Blind n (assign t.toValue v) := by
  intro w w' h
  have hassign := h.chain.assign? (.string t.lexeme) v
  rw [assign_apply, assign_apply]
  generalize w.chain.assign? (.string t.lexeme) v = found at hassign
  generalize w'.chain.assign? (.string t.lexeme) v = found' at hassign
  cases hassign with
  | none => exact ⟨rfl, h⟩
  | some hchain => exact matches_happen (h.withChain hchain) (.assigned (.string t.lexeme) v)

/-- A declaration does not see the empty scope unless it is the innermost one. -/
theorem blind_define (t : Token) (v : Value) : Blind (n + 1) (define t.toValue v) := by
  intro w w' h
  rw [define_apply, define_apply]
  exact matches_happen (h.withChain (h.chain.define _ _)) (.declared (.string t.lexeme) v)

theorem Blind.inNewScope {body : Exec Unit} (hbody : Blind (n + 1) body) : Blind n (inNewScope body) := by
  intro w w' h
  obtain ⟨hresult, hchain, hwritten, hshows⟩ := hbody _ _ (h.withChain (.under {} h.chain))
  exact ⟨hresult, hchain.tail, hwritten, hshows⟩

theorem blind_evaluate (e : Expr) : Blind n (evaluate e.toValue) := by
  induction e with
  | literal v => exact blind_pure v
  | grouping e ih => exact ih
  | unary operator e ih => exact ih.bind fun v => blind_ofExcept _
  | binary l operator r ihl ihr => exact ihl.bind fun a => ihr.bind fun b => blind_ofExcept _
  | «variable» name => exact blind_lookup name
  | assign name e ih => exact ih.bind fun v => (blind_assign name v).bind fun _ => blind_pure v

theorem blind_initialValue (initializer : Option Expr) :
    Blind n (initialValue (initializer.elim .nil Expr.toValue)) := by
  cases initializer with
  | none => exact blind_pure Value.nil
  | some e =>
    rw [Option.elim_some, initialValue_toValue]
    exact blind_evaluate e

mutual

/-- Only a declaration in the empty scope itself would see it. -/
theorem blind_execute : (s : Stmt) → (n : Nat) →
    (n = 0 → ∀ name initializer, s ≠ .var name initializer) → Blind n (execute s.toValue)
  | .expression e, _, _ => (blind_evaluate e).bind fun _ => blind_pure ()
  | .print e, _, _ => (blind_evaluate e).bind fun v => blind_happen (.printed v)
  | .var name initializer, 0, h => absurd rfl (h rfl name initializer)
  | .var name initializer, _ + 1, _ =>
    (blind_initialValue initializer).bind fun v => blind_define name v
  | .block body, n, _ => Blind.inNewScope ((blind_happen _).bind fun _ =>
      (blind_executeAll body (n + 1) fun h => absurd h (Nat.succ_ne_zero n)).bind fun _ =>
        blind_happen .left)

theorem blind_executeAll : (ss : List Stmt) → (n : Nat) →
    (n = 0 → ∀ name initializer, Stmt.var name initializer ∉ ss) →
    Blind n (executeAll (Stmt.toValues ss))
  | [], _, _ => blind_pure ()
  | s :: ss, n, h => by
    have hs : n = 0 → ∀ name initializer, s ≠ .var name initializer := by
      rintro hn name initializer rfl
      exact h hn name initializer (List.mem_cons_self ..)
    have hss : n = 0 → ∀ name initializer, Stmt.var name initializer ∉ ss :=
      fun hn name initializer hmem => h hn name initializer (List.mem_cons_of_mem s hmem)
    exact (blind_execute s n hs).bind fun _ => blind_executeAll ss n hss

end

/-- A block that declares nothing at its own level ends as its statements end without it, with the
same error on the same token if they fail, and it leaves the same scopes and prints the same text. -/
theorem matches_execute_block {ss : List Stmt}
    (hss : ∀ name initializer, Stmt.var name initializer ∉ ss) {w w' : World}
    (h : World.Matches Eq w w') :
    (execute (Stmt.block ss).toValue w).1 = (executeAll (Stmt.toValues ss) w').1 ∧
      World.Matches Eq (execute (Stmt.block ss).toValue w).2 (executeAll (Stmt.toValues ss) w').2 := by
  -- the event of entering the block, which is always traced
  obtain ⟨hentered, hstart⟩ := silent_happen (e := .entered (Stmt.toValues ss).length) rfl rfl
    { w with chain := {} :: w.chain }
  generalize hfirst : happen (.entered (Stmt.toValues ss).length) { w with chain := {} :: w.chain } =
    first at hentered hstart
  obtain ⟨result, start⟩ := first
  obtain rfl : result = .ok () := hentered
  have hpadded : World.Matches (Chain.Padded 0) start w' := by
    refine ⟨?_, hstart.written.trans h.written, hstart.shows.trans h.shows⟩
    rw [hstart.chain, h.chain]
    exact .here w'.chain
  obtain ⟨hresult, hworld⟩ := blind_executeAll ss 0 (fun _ => hss) start w' hpadded
  have hblock : execute (Stmt.block ss).toValue w =
      inNewScope (happen (.entered (Stmt.toValues ss).length) >>= fun _ =>
        executeAll (Stmt.toValues ss) >>= fun _ => happen .left) w := rfl
  rw [hblock, inNewScope_apply, bind_apply, hfirst]
  simp only [bind_apply]
  generalize executeAll (Stmt.toValues ss) start = final at hresult hworld ⊢
  obtain ⟨result, w₁⟩ := final
  cases result with
  | error fault => exact ⟨hresult, hworld.chain.tail_eq, hworld.written, hworld.shows⟩
  | ok _ =>
    obtain ⟨hleft, hlast⟩ := silent_happen (e := .left) rfl rfl w₁
    refine ⟨hleft.trans hresult, ?_, hlast.written.trans hworld.written,
      hlast.shows.trans hworld.shows⟩
    exact (congrArg List.tail hlast.chain).trans hworld.chain.tail_eq

theorem matches_passOn (fault : Fault) {w w' : World} (h : World.Matches R w w') :
    (passOn fault w).1 = (passOn fault w').1 ∧
      World.Matches R (passOn fault w).2 (passOn fault w').2 := by
  cases fault with
  | breakdown b => exact ⟨rfl, h⟩
  | runtime e =>
    obtain ⟨hresult, hworld⟩ := matches_happen h (.failed e.token.line e.message)
    rw [passOn_runtime, passOn_runtime]
    generalize happen _ w = final at hresult hworld ⊢
    generalize happen _ w' = final' at hresult hworld ⊢
    obtain ⟨result, w₁⟩ := final
    obtain ⟨result', w₁'⟩ := final'
    cases hresult
    cases result with
    | error fault => exact ⟨rfl, hworld⟩
    | ok _ => exact ⟨rfl, hworld⟩

/-- Programs come to the same if their statements do. -/
theorem matches_executeProgram {vs vs' : List Value}
    (h : ∀ w w', World.Matches Eq w w' → (executeAll vs w).1 = (executeAll vs' w').1 ∧
      World.Matches Eq (executeAll vs w).2 (executeAll vs' w').2) (w : World) :
    (executeProgram vs w).1 = (executeProgram vs' w).1 ∧
      World.Matches Eq (executeProgram vs w).2 (executeProgram vs' w).2 := by
  obtain ⟨u, hu, hshows⟩ := started_write vs.length w.trace
  obtain ⟨u', hu', hshows'⟩ := started_write vs'.length w.trace
  have hstarted : World.Matches Eq ⟨w.chain, w.events.push (.started vs.length), u⟩
      ⟨w.chain, w.events.push (.started vs'.length), u'⟩ := by
    refine ⟨rfl, ?_, hshows.trans hshows'.symm⟩
    exact (written_push_of_silent _ rfl).trans (written_push_of_silent _ rfl).symm
  obtain ⟨hresult, hworld⟩ := h _ _ hstarted
  rw [executeProgram_apply hu, executeProgram_apply hu']
  generalize executeAll vs _ = final at hresult hworld ⊢
  generalize executeAll vs' _ = final' at hresult hworld ⊢
  obtain ⟨result, w₁⟩ := final
  obtain ⟨result', w₁'⟩ := final'
  cases hresult
  cases result with
  | ok _ => exact ⟨rfl, hworld⟩
  | error fault => exact matches_passOn fault hworld

end LoxLang.Run

namespace LoxLang.Session

open Run

/-- A block that declares nothing at its own level can be left out. In every world its statements end
as they end in the block, with the same error on the same token if they fail, and leave the same
scopes and the same printed text. So in every session and every chain of scopes the block and its
statements have the same ending, scopes, output and report. -/
theorem block_transparent {ss : List Stmt}
    (hss : ∀ name initializer, Stmt.var name initializer ∉ ss) :
    (∀ w : World,
      (execute (Stmt.block ss).toValue w).1 = (executeAll (Stmt.toValues ss) w).1 ∧
      (execute (Stmt.block ss).toValue w).2.chain = (executeAll (Stmt.toValues ss) w).2.chain ∧
      written (execute (Stmt.block ss).toValue w).2.events =
        written (executeAll (Stmt.toValues ss) w).2.events) ∧
    ∀ (s : Session) (chain : Chain),
      let wrapped := s.interpretIn (Stmt.toValues [.block ss]) chain
      let plain := s.interpretIn (Stmt.toValues ss) chain
      wrapped.1 = plain.1 ∧ wrapped.2.1 = plain.2.1 ∧ wrapped.2.2.output = plain.2.2.output ∧
        wrapped.2.2.report = plain.2.2.report := by
  refine ⟨fun w => ?_, fun s chain => ?_⟩
  · obtain ⟨hresult, hchain, hwritten, -⟩ := matches_execute_block hss (w := w) ⟨rfl, rfl, rfl⟩
    exact ⟨hresult, hchain, hwritten⟩
  · have hblock : executeAll (Stmt.toValues [.block ss]) = execute (Stmt.block ss).toValue :=
      bind_pure_unit
    have hran : (s.ran (Stmt.toValues [.block ss]) chain).1 = (s.ran (Stmt.toValues ss) chain).1 ∧
        World.Matches Eq (s.ran (Stmt.toValues [.block ss]) chain).2
          (s.ran (Stmt.toValues ss) chain).2 := by
      refine matches_executeProgram (fun w w' h => ?_) ⟨chain, #[], s.trace⟩
      rw [hblock]
      exact matches_execute_block hss h
    obtain ⟨hresult, hchain, hwritten, -⟩ := hran
    rw [interpretIn_eq, interpretIn_eq, hresult]
    refine ⟨rfl, hchain, congrArg (s.output ++ ·) hwritten, ?_⟩
    exact congrArg (fun result => s.report.addAll (problems result)) hresult

/-- The statements of `{ var b; b = "x"; print b; } b = nil; print -b;`. -/
private def declaringInside : List Stmt :=
  let b : Token := ⟨.identifier, "b", .nil, 1⟩
  [.block [.var b none, .expression (.assign b (.literal (.string "x"))), .print (.variable b)],
    .expression (.assign b (.literal .nil)), .print (.unary ⟨.minus, "-", .nil, 1⟩ (.variable b))]

theorem block_transparent_declaringInside :
    let outcome := (Session.start 0).interpretIn (Stmt.toValues [.block declaringInside])
      [⟨[(.string "b", .bool true)]⟩]
    (∀ name initializer, Stmt.var name initializer ∉ declaringInside) ∧ outcome.1 = .ok false ∧
    outcome.2.1 = [⟨[(.string "b", .nil)]⟩] ∧ outcome.2.2.output = "x\n" ∧
    outcome.2.2.report = ({} : Report).add (.runtime 1 "Operand must be a number.") := by
  intro outcome
  have hss : ∀ name initializer, Stmt.var name initializer ∉ declaringInside := by
    simp [declaringInside]
  obtain ⟨hending, hchain, houtput, hreport⟩ :=
    (block_transparent hss).2 (Session.start 0) [⟨[(.string "b", .bool true)]⟩]
  exact ⟨hss, hending, hchain, houtput, hreport⟩

end LoxLang.Session
