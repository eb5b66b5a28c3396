import Mathlib.Data.Nat.Notation
import Mathlib.Tactic.SplitIfs
import LoxLang.Command.Options

/-!
What arguments ask for.

The usages of the command are taken for the options that they name. The options that some arguments
ask for are just those that do not both save and load, with a file that is not called `--`, since
that is never taken for a value.
-/
namespace LoxLang.Command

theorem exists_of_bind_eq_ok {α β : Type} {x : Except Refusal α} {f : α → Except Refusal β} {b : β}
    (h : x >>= f = .ok b) : ∃ a, x = .ok a ∧ f a = .ok b := by
  cases x with
  | error e => cases h
  | ok a => exact ⟨a, rfl, h⟩

/-! Classes of arguments. -/

theorem classify_verbose : classify "-v" = .ok (.short .verbose []) := rfl

theorem classify_separator : classify "--" = .ok .separator := rfl

theorem classify_of_head {text : String} (h : text.toList.head? ≠ some '-') :
    classify text = .ok (.plain text) := by
  unfold classify
  split <;> simp_all

/-- The names of long options hold no equals sign, so the value is what follows the first one. -/
theorem classify_assigned {name : String} {option : Long} (h : (name.toList, option) ∈ Long.names)
    (value : String) : classify (name ++ "=" ++ value) = .ok (.long option (some value)) := by
  simp only [Long.names, List.mem_cons, Prod.mk.injEq, List.not_mem_nil, or_false,
    String.toList_inj] at h
  obtain ⟨rfl, rfl⟩ | ⟨rfl, rfl⟩ | ⟨rfl, rfl⟩ := h <;>
    simp [classify, classifyLong, Long.names]

theorem unnamed_eq_plain {cs : List Char} {text : String} (h : unnamed cs = .plain text) :
    text = String.ofList cs := by
  unfold unnamed at h
  split_ifs at h
  exact (Argument.plain.inj h).symm

theorem classifyLong_eq_plain {cs : List Char} {text : String}
    (h : classifyLong cs = .ok (.plain text)) : text = String.ofList cs := by
  unfold classifyLong at h
  dsimp only at h
  split at h
  · cases h
  · split at h
    · exact unnamed_eq_plain (Except.ok.inj h)
    · cases h
    · cases h

/-- A plain argument is what it was, and not the separator. -/
theorem eq_of_classify_plain {text other : String} (h : classify text = .ok (.plain other)) :
    other = text ∧ text ≠ "--" := by
  constructor
  · unfold classify at h
    split at h
    · cases h
    · next heq => rw [classifyLong_eq_plain h, ← heq, String.ofList_toList]
    · next heq =>
      split at h
      · split_ifs at h <;> cases h
      · cases h
      · rw [unnamed_eq_plain (Except.ok.inj h), ← heq, String.ofList_toList]
    · exact (Argument.plain.inj (Except.ok.inj h)).symm
  · rintro rfl
    rw [classify_separator] at h
    cases h

theorem classifyAll_cons {text : String} {argument : Argument} (h : classify text = .ok argument)
    (hne : argument ≠ .separator) (rest : List String) :
    classifyAll (text :: rest) =
      classifyAll rest >>= fun arguments => .ok (argument :: arguments) := by
  rw [classifyAll, h]
  cases argument with
  | separator => exact absurd rfl hne
  | _ => rfl

theorem classifyAll_separator (rest : List String) :
    classifyAll ("--" :: rest) = .ok (.separator :: rest.map .plain) := by
  rw [classifyAll, classify_separator]
  rfl

theorem classifyAll_verbose (n : ℕ) (rest : List String) :
    classifyAll (List.replicate n "-v" ++ rest) =
      (classifyAll rest).map (List.replicate n (.short .verbose []) ++ ·) := by
  induction n with
  | zero => cases h : classifyAll rest <;> simp [h, Except.map]
  | succ n ih =>
    rw [List.replicate_succ, List.cons_append, classifyAll_cons classify_verbose nofun, ih]
    cases classifyAll rest <;> rfl

theorem takeAll_verbose (n : ℕ) (s : State) (rest : List Argument) :
    takeAll s (List.replicate n (.short .verbose []) ++ rest) =
      takeAll { s with options.verbosity := s.options.verbosity + n } rest := by
  induction n generalizing s with
  | zero => rfl
  | succ n ih =>
    have hstep : takeAll s (.short .verbose [] :: (List.replicate n (.short .verbose []) ++ rest)) =
        takeAll { s with options.verbosity := s.options.verbosity + 1 }
          (List.replicate n (.short .verbose []) ++ rest) := rfl
    rw [List.replicate_succ, List.cons_append, hstep, ih]
    simp [Nat.add_assoc, Nat.add_comm 1]

/-- Behind as many `-v` as are wanted, arguments are taken as without them. -/
theorem parse_verbose (v : ℕ) {texts : List String} {arguments : List Argument} {s : State}
    (hclasses : classifyAll texts = .ok arguments)
    (hstate : takeAll { options.verbosity := v } arguments = .ok s) (hextra : s.extra = false) :
    Options.parse (List.replicate v "-v" ++ texts) = .ok s.options := by
  unfold Options.parse
  have htaken := takeAll_verbose v {} arguments
  rw [Nat.zero_add, hstate] at htaken
  rw [classifyAll_verbose, hclasses]
  simp only [Except.map, bind, Except.bind, htaken, hextra]
  rfl

/--
The usages of the command: lines that are typed in, a script, a script whose tree is to be saved, or
a tree file, with as much tracing as there are `-v` in front. The name of a file is taken for one
unless it starts with a minus sign.
-/
theorem parse_usage (v : ℕ) {f : String} (hf : f.toList.head? ≠ some '-') :
    Options.parse (List.replicate v "-v") = .ok { verbosity := v } ∧
    Options.parse (List.replicate v "-v" ++ [f]) = .ok { verbosity := v, script := some f } ∧
    Options.parse (List.replicate v "-v" ++ ["--emit-ast", f]) =
      .ok { verbosity := v, emit := some f } ∧
    Options.parse (List.replicate v "-v" ++ ["--ast", f]) =
      .ok { verbosity := v, tree := some f } := by
  have hplain : classifyAll [f] = .ok [.plain f] := by
    rw [classifyAll_cons (classify_of_head hf) nofun]
    rfl
  have hemit : classify "--emit-ast" = .ok (.long .emit none) := rfl
  have htree : classify "--ast" = .ok (.long .tree none) := rfl
  refine ⟨?_, parse_verbose v hplain rfl rfl, ?_, ?_⟩
  · rw [← List.append_nil (List.replicate v "-v")]
    have hnone : classifyAll [] = .ok [] := rfl
    exact parse_verbose v hnone rfl rfl
  · exact parse_verbose v (by rw [classifyAll_cons hemit nofun, hplain]; rfl) rfl rfl
  · exact parse_verbose v (by rw [classifyAll_cons htree nofun, hplain]; rfl) rfl rfl

/-! What no arguments can ask for. -/

/-- A tree is not both saved and loaded, and the file is not called like the separator. -/
structure Options.Askable (o : Options) : Prop where
  exclusive : o.emit = none ∨ o.tree = none
  emit : o.emit ≠ some "--"
  tree : o.tree ≠ some "--"

/-- Arguments in front of a separator are no separators. -/
def Sensible : List Argument → Prop
  | [] | .separator :: _ => True
  | .plain text :: rest => text ≠ "--" ∧ Sensible rest
  | _ :: rest => Sensible rest

theorem sensible_cons {argument : Argument} {rest : List Argument}
    (h : ∀ text, argument = .plain text → text ≠ "--") (hrest : Sensible rest) :
    Sensible (argument :: rest) := by
  cases argument with
  | plain text => exact ⟨h text rfl, hrest⟩
  | separator => trivial
  | _ => exact hrest

theorem sensible_classifyAll {texts : List String} {arguments : List Argument}
    (h : classifyAll texts = .ok arguments) : Sensible arguments := by
  induction texts generalizing arguments with
  | nil =>
    cases h
    trivial
  | cons text rest ih =>
    obtain ⟨argument, hclass, -⟩ := exists_of_bind_eq_ok h
    by_cases hseparator : argument = .separator
    · rw [classifyAll, hclass, hseparator] at h
      cases h
      trivial
    · rw [classifyAll_cons hclass hseparator] at h
      obtain ⟨arguments', hrest, h⟩ := exists_of_bind_eq_ok h
      cases h
      refine sensible_cons ?_ (ih hrest)
      rintro other rfl
      obtain ⟨rfl, hne⟩ := eq_of_classify_plain hclass
      exact hne

namespace State

variable {s s' : State}

theorem askable_takeShorts {shorts : List Short} (hs : s.options.Askable)
    (h : shorts.foldlM takeShort s = .ok s') : s'.options.Askable := by
  induction shorts generalizing s with
  | nil =>
    cases h
    exact hs
  | cons short shorts ih =>
    cases short with
    | verbose =>
      have hverbose : ({ s with options.verbosity := s.options.verbosity + 1 } : State).options.Askable :=
        ⟨hs.exclusive, hs.emit, hs.tree⟩
      exact ih hverbose h
    | help => cases h

theorem askable_takeLong {option : Long} {value : String} (hs : s.options.Askable)
    (hvalue : value ≠ "--") (h : s.takeLong option value = .ok s') : s'.options.Askable := by
  have hgiven : some value ≠ some "--" := fun heq => hvalue (Option.some.inj heq)
  cases option with
  | help => cases h
  | emit =>
    unfold takeLong at h
    dsimp only at h
    split_ifs at h with htree
    cases h
    exact ⟨.inr (by simpa using htree), hgiven, hs.tree⟩
  | tree =>
    unfold takeLong at h
    dsimp only at h
    split_ifs at h with hemit
    cases h
    exact ⟨.inl (by simpa using hemit), hs.emit, hgiven⟩

theorem askable_takePlain (hs : s.options.Askable) (settled : Bool) (arguments : List Argument) :
    (s.takePlain settled arguments).options.Askable := by
  unfold takePlain
  split
  · exact hs
  · split_ifs
    · exact hs
    · exact ⟨hs.exclusive, hs.emit, hs.tree⟩
  · exact hs

end State

theorem askable_takeAll {s s' : State} {arguments : List Argument} (hs : s.options.Askable)
    (hsensible : Sensible arguments) (h : takeAll s arguments = .ok s') : s'.options.Askable := by
  fun_induction takeAll s arguments generalizing s' with
  | case1 s =>
    cases h
    exact hs
  | case2 s rest =>
    cases h
    exact State.askable_takePlain hs s.settled rest
  | case3 s rest ih => exact ih hs hsensible h
  | case4 s first cs rest ih =>
    obtain ⟨shorts, -, h⟩ := exists_of_bind_eq_ok h
    obtain ⟨t, htaken, h⟩ := exists_of_bind_eq_ok h
    exact ih t (State.askable_takeShorts hs htaken) hsensible h
  | case5 | case6 | case9 => cases h
  | case7 s option value rest _ ih =>
    obtain ⟨t, htaken, h⟩ := exists_of_bind_eq_ok h
    have hvalue : (if value = "--" then "" else value) ≠ "--" := by
      split_ifs with hseparator
      · decide
      · exact hseparator
    exact ih t (State.askable_takeLong hs hvalue htaken) hsensible h
  | case8 s option value rest _ ih =>
    obtain ⟨t, htaken, h⟩ := exists_of_bind_eq_ok h
    exact ih t (State.askable_takeLong hs hsensible.1 htaken) hsensible.2 h
  | case10 s text rest _ ih => exact ih hs hsensible.2 h
  | case11 =>
    cases h
    exact ⟨hs.exclusive, hs.emit, hs.tree⟩
  | case12 =>
    rename_i ih
    exact ih ⟨hs.exclusive, hs.emit, hs.tree⟩ hsensible.2 h

theorem askable_parse {texts : List String} {o : Options} (h : Options.parse texts = .ok o) :
    o.Askable := by
  obtain ⟨arguments, hclasses, h⟩ := exists_of_bind_eq_ok h
  obtain ⟨s, htaken, h⟩ := exists_of_bind_eq_ok h
  have hempty : Options.Askable {} := ⟨.inl rfl, nofun, nofun⟩
  have hs := askable_takeAll hempty (sensible_classifyAll hclasses) htaken
  split_ifs at h
  cases h
  exact hs

/-- Arguments that ask for the options. -/
def Options.arguments (o : Options) : List String :=
  List.replicate o.verbosity "-v" ++ (o.emit.toList.map ("--emit-ast" ++ "=" ++ ·) ++
    (o.tree.toList.map ("--ast" ++ "=" ++ ·) ++ o.script.elim [] fun f => ["--", f]))

theorem classifyAll_assigned {name : String} {option : Long}
    (h : (name.toList, option) ∈ Long.names) (value : Option String) {rest : List String}
    {arguments : List Argument} (hrest : classifyAll rest = .ok arguments) :
    classifyAll (value.toList.map (name ++ "=" ++ ·) ++ rest) =
      .ok (value.toList.map (fun f => .long option (some f)) ++ arguments) := by
  cases value with
  | none => exact hrest
  | some f =>
    change classifyAll ((name ++ "=" ++ f) :: rest) = _
    rw [classifyAll_cons (classify_assigned h f) nofun, hrest]
    rfl

theorem takeAll_assigned {s : State} {option : Long} {value : String} (hoption : option ≠ .help)
    (hvalue : value ≠ "--") (rest : List Argument) :
    takeAll s (.long option (some value) :: rest) =
      s.takeLong option value >>= (takeAll · rest) := by
  cases option with
  | help => exact absurd rfl hoption
  | _ =>
    rw [takeAll.eq_def]
    simp only [if_neg hvalue]

/-- Options that do not ask for the impossible are asked for by the arguments made from them. -/
theorem parse_arguments {o : Options} (h : o.Askable) : Options.parse o.arguments = .ok o := by
  obtain ⟨v, emit, tree, script⟩ := o
  obtain ⟨hexclusive, hemit, htree⟩ := h
  have hscript : classifyAll (script.elim [] fun f => ["--", f]) =
      .ok (script.elim [] fun f => [.separator, .plain f]) := by
    cases script with
    | none => rfl
    | some f => exact classifyAll_separator [f]
  have hclasses := classifyAll_assigned (show ("--emit-ast".toList, .emit) ∈ Long.names by decide)
    emit (classifyAll_assigned (show ("--ast".toList, .tree) ∈ Long.names by decide) tree hscript)
  refine parse_verbose v (s := ⟨⟨v, emit, tree, script⟩, script.isSome, false⟩) hclasses ?_ rfl
  rcases hexclusive with rfl | rfl
  · cases tree with
    | none => cases script <;> rfl
    | some f =>
      change takeAll _ (.long .tree (some f) :: _) = _
      rw [takeAll_assigned (by decide) fun hf => htree (congrArg some hf)]
      cases script <;> rfl
  · cases emit with
    | none => cases script <;> rfl
    | some f =>
      change takeAll _ (.long .emit (some f) :: _) = _
      rw [takeAll_assigned (by decide) fun hf => hemit (congrArg some hf)]
      cases script <;> rfl

/-- The options that some arguments ask for. -/
theorem exists_parse_iff (o : Options) :
    (∃ texts, Options.parse texts = .ok o) ↔
      (o.emit = none ∨ o.tree = none) ∧ o.emit ≠ some "--" ∧ o.tree ≠ some "--" := by
  constructor
  · rintro ⟨texts, h⟩
    obtain ⟨hexclusive, hemit, htree⟩ := askable_parse h
    exact ⟨hexclusive, hemit, htree⟩
  · rintro ⟨hexclusive, hemit, htree⟩
    exact ⟨o.arguments, parse_arguments ⟨hexclusive, hemit, htree⟩⟩

end LoxLang.Command
