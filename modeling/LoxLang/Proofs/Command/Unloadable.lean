import LoxLang.Proofs.Command.SavedTree
import LoxLang.Proofs.Tree.Overflow

/-!
Tree files that cannot be loaded.

Whatever data a tree file holds, the command that runs it goes on to the program or reports why
there is none. The one exception are numbers too large to convert, on which it breaks off.
-/
namespace LoxLang.Command

open Value

/-- How a command that runs a tree file goes on with the data in it. -/
inductive GoesOn (p : Path) (o : Value) (s : Session) : Deed → Prop
  | runs {statements : List Value} (h : o.programOfObject = .ok statements) :
      GoesOn p o s (programDeed (s.interpret statements))
  | reports {e : LoadError} (h : o.programOfObject = .error e) (he : ¬ e.isOverflow) :
      GoesOn p o s { concluded s (.exit 65) with
        errors := "Error: invalid AST file " ++ p.text ++ ": " ++ e.message ++ "\n" }
  | breaksOff {e : LoadError} (h : o.programOfObject = .error e) (he : e.isOverflow) :
      GoesOn p o s (concluded s (.failed (.overflow e)))

theorem runTree_goesOn {bytes : ByteArray} {text : String} {o : Value}
    (htext : textOf? bytes = some text) (hread : Json.read text = .ok o) (p : Path) (s : Session) :
    GoesOn p o s (runTree p (.ok (.file bytes)) s) := by
  have hfile : TreeFile.read text = o.programOfObject.mapError .unloadable := by
    unfold TreeFile.read
    rw [hread]
    rfl
  unfold runTree readEntry
  simp only [htext, hfile]
  cases hload : o.programOfObject with
  | ok statements => exact .runs hload
  | error e =>
    simp only [Except.mapError]
    split
    · next he => exact .breaksOff hload he
    · next he => exact .reports hload he

theorem verdict_programDeed (result : Session.Ending × Session) (e : LoadError) :
    (programDeed result).verdict ≠ .failed (.overflow e) := by
  rcases result with ⟨_ | _, s⟩ <;> simp [programDeed, concluded]

/-- A command breaks off while it loads its tree only if loading does. -/
theorem GoesOn.failed_iff {p : Path} {o : Value} {s : Session} {deed : Deed}
    (h : GoesOn p o s deed) :
    (∃ e, deed.verdict = .failed (.overflow e)) ↔ Overflows o.programOfObject := by
  cases h with
  | runs hload =>
    rw [hload]
    refine iff_of_false ?_ (not_overflows_ok _)
    rintro ⟨e, he⟩
    exact verdict_programDeed _ e he
  | reports hload he =>
    rw [hload, overflows_error_iff]
    exact iff_of_false nofun he
  | @breaksOff e hload he => exact iff_of_true ⟨e, rfl⟩ ⟨e, hload, he⟩

/--
A tree file that cannot be loaded is reported, unless what cannot be loaded first is a number too
large to convert. Loading breaks off on such a number only, so it never does if there is none in the
data. The command runs the program, reports the error or breaks off, and the last only if loading
does.
-/
theorem unloadable_tree_is_reported (o : Value) :
    ((∃ e, o.programOfObject = .error e ∧ e.isOverflow) ↔ o.ProgramBreaksOff) ∧
    (o.ProgramBreaksOff → o.Holds Oversized) ∧
    ∀ (d : Disk) (f text input : String) (v : ℕ),
      readEntry (d.entry (.ofText f)) = .ok text → Json.read text = .ok o →
      (v ≠ 0 → d.entry tracePath ≠ .ok .directory ∧
        ∀ e, d.follow (.ofText f) ≠ .ok (d.tracePlace, e)) →
      GoesOn (.ofText f) o (.start v) (d.perform { tree := some f, verbosity := v } input).1 ∧
      ((∃ e, (d.perform { tree := some f, verbosity := v } input).1.verdict =
        .failed (.overflow e)) ↔ o.ProgramBreaksOff) := by
  refine ⟨overflows_programOfObject_iff o, ProgramBreaksOff.holds, ?_⟩
  intro d f text input v hread hjson htrace
  obtain ⟨r, bytes, hfollow, htext⟩ := exists_follow hread
  have hother := ne_trace_of_follow hfollow htrace
  rw [(perform_tree input (ne_empty_of_follow hfollow) hfollow hother).1]
  have hgoes := runTree_goesOn htext hjson (.ofText f) (.start v)
  exact ⟨hgoes, hgoes.failed_iff.trans (overflows_programOfObject_iff o)⟩

theorem portable_record (tag : String) {key : String} (hkey : key ≠ "type") {v : Value}
    (h : Json.Portable v) : Json.Portable (record tag [(key, v)]) :=
  ⟨by simpa using hkey.symm, rfl, rfl, rfl, h, trivial⟩

/-- A program that prints an enormous number, behind a statement that is loaded. -/
private def enormous : Value :=
  record "Program" [("body", .list [.nil, record "Print" [("expression",
    record "Literal" [("value", .integer (10 ^ 309 : ℕ))])], .list []])]

theorem unloadable_tree_is_reported_enormous :
    enormous.ProgramBreaksOff ∧ enormous.Holds Oversized ∧
    ∃ text, readEntry ((single "a.json" text).entry (.ofText "a.json")) = .ok text ∧
      Json.read text = .ok enormous ∧
      GoesOn (.ofText "a.json") enormous (.start 0)
        ((single "a.json" text).perform { tree := some "a.json" } "").1 ∧
      ∃ e, ((single "a.json" text).perform { tree := some "a.json" } "").1.verdict =
        .failed (.overflow e) := by
  obtain ⟨-, hholds, hcommand⟩ := unloadable_tree_is_reported enormous
  have hinteger : BreaksOff (.integer (10 ^ 309 : ℕ)) := .here (.integer (by decide +kernel))
  have hliteral : BreaksOff (record "Literal" [("value", .integer (10 ^ 309 : ℕ))]) :=
    .part nofun rfl (List.nil_append _).symm nofun rfl hinteger
  have hprint : BreaksOff (record "Print" [("expression",
      record "Literal" [("value", .integer (10 ^ 309 : ℕ))])]) :=
    .part nofun rfl (List.nil_append _).symm nofun rfl hliteral
  have hbreaks : enormous.ProgramBreaksOff :=
    ⟨_, [.nil], _, [.list []], rfl, rfl, rfl, List.forall_mem_singleton.mpr ⟨.nil, rfl⟩, hprint⟩
  have hportable : Json.Portable enormous := by
    have hvalue : Json.Portable (.integer (10 ^ 309 : ℕ)) := portable_natCast (by decide +kernel)
    have hexpression := portable_record "Literal" (show "value" ≠ "type" by decide) hvalue
    have hprinted := portable_record "Print" (show "expression" ≠ "type" by decide) hexpression
    exact portable_record "Program" (by decide) ⟨trivial, hprinted, trivial, trivial⟩
  obtain ⟨text, -, hjson, hreturn⟩ := Json.read_write Json.indented_spaced hportable
  have hpath : Path.ofText "a.json" = ⟨[], ["a.json".toList]⟩ := by decide
  have hread := readEntry_single (.inl hpath) (by decide) (by decide) hreturn
  obtain ⟨hgoes, hfails⟩ := hcommand (single "a.json" text) "a.json" text "" 0 hread hjson
    fun h => absurd rfl h
  exact ⟨hbreaks, hholds hbreaks, text, hread, hjson, hgoes, hfails.mpr hbreaks⟩

end LoxLang.Command
