import Mathlib.Tactic.SplitIfs
import LoxLang.Command.Job
import LoxLang.Proofs.Command.Disk
import LoxLang.Proofs.Command.Path
import LoxLang.Proofs.Run.Report
import LoxLang.Proofs.Tree.File

/-!
Running a saved tree does what running its script does. A script with static problems has no tree
saved, and the problems are the first that running it shows.
-/
namespace LoxLang.Command

variable {d : Disk} {p : Path}

theorem names_trace : tracePath.names = ["debug.txt".toList] := by
  decide

theorem text_trace : tracePath.text = "debug.txt" := by
  rw [Path.text_of_ne_nil (by rw [names_trace]; simp), names_trace]
  decide

/-- The trace file is looked for right in the working directory. -/
theorem entry_trace (d : Disk) :
    d.entry tracePath = (d.find? d.tracePlace).elim (.error .missing) .ok := by
  have hfollow : d.follow tracePath = d.walk d.here tracePath.names := by
    apply d.follow_eq
    · rw [text_trace]
      decide
    · rw [text_trace]
      decide
  unfold Disk.entry Disk.tracePlace
  rw [hfollow, names_trace, Disk.walk_name (by decide) (by decide)]
  cases d.find? (d.here ++ ["debug.txt".toList]) with
  | none => rfl
  | some e =>
    cases e with
    | file bytes => rfl
    | directory => rfl

theorem vacant_trace (h : d.entry tracePath ≠ .ok .directory) : d.Vacant d.tracePlace := by
  rw [entry_trace] at h
  unfold Disk.tracePlace at h ⊢
  rw [names_trace] at h ⊢
  apply (Disk.Leads.nil d.here).vacant List.prefix_rfl
  intro hfind
  exact h (congrArg (Option.elim · _ _) hfind)

@[simp] theorem tracePlace_write (d : Disk) (n : List (List Char)) (text : String) :
    (d.write n text).tracePlace = d.tracePlace := by
  rw [Disk.tracePlace, Disk.tracePlace, Disk.write_here]

theorem entry_trace_write {n : List (List Char)} (hn : d.Vacant n) (text : String) :
    (d.write n text).entry tracePath =
      if d.tracePlace = n then .ok (.file text.toUTF8) else d.entry tracePath := by
  rw [entry_trace, entry_trace, tracePlace_write, Disk.find?_write hn]
  split
  · rfl
  · rfl

theorem trace_start (v : ℕ) : (Session.start v).trace.text = if v = 0 then none else some "" := by
  unfold Session.start Run.Trace.start
  by_cases hv : v = 0
  · simp [hv]
  · simp [hv, Nat.pos_of_ne_zero hv]

/-- A program is run as its file says, and the trace is written beside it. -/
theorem perform_run {o : Options} {input : String} {bytes : ByteArray} {r : List (List Char)}
    {job : Except Obstacle Entry → Session → Deed} (hemit : o.emit = none)
    (hjob : ∀ (d : Disk) (s : Session), d.run o input s = job (d.entry p) s)
    (hfollow : d.follow p = .ok (r, .file bytes))
    (htrace : o.verbosity ≠ 0 → d.entry tracePath ≠ .ok .directory ∧ r ≠ d.tracePlace) :
    (d.perform o input).1 = job (.ok (.file bytes)) (.start o.verbosity) ∧
    (d.perform o input).2.entry tracePath =
      if o.verbosity = 0 then d.entry tracePath
      else .ok (.file ((job (.ok (.file bytes)) (.start o.verbosity)).traced.getD "").toUTF8) := by
  have hentry : ∀ {d : Disk}, d.follow p = .ok (r, .file bytes) →
      d.entry p = .ok (.file bytes) := by
    intro d h
    rw [Disk.entry, h]
    rfl
  have htext := trace_start o.verbosity
  unfold Disk.perform
  rw [hemit]
  simp only [given?]
  by_cases hv : o.verbosity = 0
  · rw [if_pos hv] at htext ⊢
    rw [htext]
    exact ⟨by rw [hjob, hentry hfollow], rfl⟩
  · obtain ⟨hdirectory, hr⟩ := htrace hv
    have hvacant := vacant_trace hdirectory
    have hwritten := Disk.follow_write hvacant hfollow hr ""
    rw [if_neg hv] at htext ⊢
    rw [htext]
    split
    · next heq => cases heq
    · next heq => exact absurd heq hdirectory
    · next text heq _ =>
      obtain rfl := Option.some.inj heq
      rw [hjob, hentry hwritten]
      refine ⟨rfl, ?_⟩
      rw [tracePlace_write, entry_trace_write (hvacant.write ""), tracePlace_write, if_pos rfl]

/-- Where the trace file is a directory, nothing is read. -/
theorem perform_of_trace_directory {o : Options} {input : String} (hemit : o.emit = none)
    (hv : o.verbosity ≠ 0) (h : d.entry tracePath = .ok .directory) :
    d.perform o input = ({ verdict := .failed .isADirectory }, d) := by
  have htext := trace_start o.verbosity
  rw [if_neg hv] at htext
  unfold Disk.perform
  rw [hemit]
  simp only [given?, htext, h]

theorem perform_script {f : String} (input : String) {v : ℕ} {bytes : ByteArray}
    {r : List (List Char)}
    (hf : f ≠ "") (hfollow : d.follow (.ofText f) = .ok (r, .file bytes))
    (htrace : v ≠ 0 → d.entry tracePath ≠ .ok .directory ∧ r ≠ d.tracePlace) :
    (d.perform { script := some f, verbosity := v } input).1 =
      runScript (.ofText f) (.ok (.file bytes)) (.start v) ∧
    (d.perform { script := some f, verbosity := v } input).2.entry tracePath =
      if v = 0 then d.entry tracePath
      else .ok (.file ((runScript (.ofText f) (.ok (.file bytes)) (.start v)).traced.getD
        "").toUTF8) := by
  apply perform_run rfl _ hfollow htrace
  intro d s
  unfold Disk.run
  simp only [given?, if_neg hf]

theorem perform_tree {f : String} (input : String) {v : ℕ} {bytes : ByteArray}
    {r : List (List Char)}
    (hf : f ≠ "") (hfollow : d.follow (.ofText f) = .ok (r, .file bytes))
    (htrace : v ≠ 0 → d.entry tracePath ≠ .ok .directory ∧ r ≠ d.tracePlace) :
    (d.perform { tree := some f, verbosity := v } input).1 =
      runTree (.ofText f) (.ok (.file bytes)) (.start v) ∧
    (d.perform { tree := some f, verbosity := v } input).2.entry tracePath =
      if v = 0 then d.entry tracePath
      else .ok (.file ((runTree (.ofText f) (.ok (.file bytes)) (.start v)).traced.getD
        "").toUTF8) := by
  apply perform_run rfl _ hfollow htrace
  intro d s
  unfold Disk.run
  simp only [given?, if_neg hf]

/-- A tree read from a file runs as the script that it was read from. -/
theorem runTree_eq_runScript {p q : Path} {bytes bytes' : ByteArray} {source text : String}
    (hscript : textOf? bytes = some source) (htree : textOf? bytes' = some text)
    (hread : TreeFile.read text = .ok (Stmt.toValues (Session.statementsOf source)))
    (hclean : (Session.readSource source).diagnostics = []) (s : Session) :
    runTree q (.ok (.file bytes')) s = runScript p (.ok (.file bytes)) s := by
  unfold runTree runScript readEntry
  simp only [hscript, htree, hread]
  rw [s.runSource_eq, hclean, Report.addAll_nil]

/-- What is reported of a source text by reading it. -/
def problems (source : String) : Report :=
  ({} : Report).addAll (Session.readSource source).diagnostics

theorem hadError_problems {source : String} (h : (Session.readSource source).diagnostics ≠ []) :
    (problems source).hadError := by
  unfold problems
  rw [Report.hadError_addAll (Session.readSource_static source)]
  simpa using h

theorem emit_of_problems {source : String} (hread : readEntry (d.entry p) = .ok source)
    (h : (Session.readSource source).diagnostics ≠ []) :
    d.emit p = ({ verdict := .exit dataError, errors := (problems source).written }, d) := by
  have hdeed : emitTree p (d.entry p) (d.entry (treePath p)) =
      { verdict := .exit dataError, errors := (problems source).written } := by
    unfold emitTree
    simp only [hread, Session.readSource_statements]
    exact if_pos (hadError_problems h)
  unfold Disk.emit
  simp only [hdeed]

/-- Running a source text with problems shows these first, whatever else it comes to. -/
theorem runScript_of_problems {file : Except Obstacle Entry} {source : String}
    (hread : readEntry file = .ok source) (h : (Session.readSource source).diagnostics ≠ [])
    (v : ℕ) :
    (runScript p file (.start v)).verdict = .exit dataError ∧
      ∃ rest, (runScript p file (.start v)).errors = (problems source).written ++ rest := by
  obtain ⟨completed, hok, -⟩ := (Session.start v).runSource_isLox nofun source
  have hreport := (Session.start v).runSource_report source
  have hdeed : runScript p file (.start v) = programDeed ((Session.start v).runSource source) := by
    unfold runScript
    rw [hread]
  rw [hdeed]
  generalize (Session.start v).runSource source = ran at hok hreport
  obtain ⟨ending, s⟩ := ran
  obtain rfl := hok
  change (s.report = problems source ∨
    ∃ d, d.kind = .runtime ∧ s.report = (problems source).add d) at hreport
  change Verdict.exit (exitStatus s.report) = _ ∧ ∃ rest, s.report.written = _
  have herror := hadError_problems h
  rcases hreport with hsame | ⟨e, he, hadd⟩
  · rw [hsame, exitStatus, if_pos herror]
    exact ⟨rfl, "", by simp⟩
  · obtain ⟨hstatic, hwritten⟩ := Report.add_runtime he (problems source)
    rw [hadd, exitStatus, hstatic, if_pos herror, hwritten]
    exact ⟨rfl, _, rfl⟩

theorem length_treeEnding : treeEnding.toList.length = 9 := by
  decide

theorem root_treePath (p : Path) : (treePath p).root = p.root := by
  unfold treePath Path.extend
  split
  · rfl
  · rfl

theorem names_treePath {init : List (List Char)} {last : List Char} (h : p.names = init ++ [last]) :
    (treePath p).names = init ++ [last ++ treeEnding.toList] := by
  unfold treePath Path.extend
  rw [h, List.getLast?_concat, List.dropLast_concat]

theorem text_treePath (hne : p.names ≠ []) : (treePath p).text = p.text ++ treeEnding :=
  Path.text_extend hne treeEnding

theorem ending_ne (last : List Char) :
    last ++ treeEnding.toList ≠ parentName ∧ last ++ treeEnding.toList ≠ "debug.txt".toList := by
  constructor
  · intro h
    have hlength := congrArg List.length h
    rw [List.length_append, length_treeEnding] at hlength
    have hparent : parentName.length = 2 := rfl
    omega
  · intro h
    have hlast := congrArg List.getLast? h
    rw [List.getLast?_append_of_ne_nil _ (by decide)] at hlast
    exact absurd hlast (by decide)

/-- The names below the top of the tree of a script, by those of the script. -/
def treeNames (r : List (List Char)) : List (List Char) :=
  ((Path.mk [] r).extend treeEnding).names

/-- The tree of a script has a place beside it, to which its path leads once the tree is there. -/
theorem treeNames_vacant {r : List (List Char)} {bytes : ByteArray}
    (hfollow : d.follow p = .ok (r, .file bytes))
    (hdirectory : d.entry (treePath p) ≠ .ok .directory)
    (hlong : d.entry (treePath p) ≠ .error .tooLong) :
    d.Vacant (treeNames r) ∧ d.tracePlace ≠ treeNames r ∧
      ∀ text, (d.write (treeNames r) text).follow (treePath p) =
        .ok (treeNames r, .file text.toUTF8) := by
  obtain ⟨hzero, -⟩ := Disk.text_of_follow hfollow
  obtain ⟨init, last, q, hnames, hleads, rfl, -⟩ := Disk.exists_leads_of_follow hfollow
  obtain ⟨hparent, htrace⟩ := ending_ne last
  have hzero' : '\x00' ∉ (treePath p).text.toList := by
    rw [text_treePath (by simp [hnames]), String.toList_append, List.mem_append, not_or]
    exact ⟨hzero, by decide⟩
  have hleads' : d.Leads (d.origin (treePath p)) init q := by
    rwa [Disk.origin, root_treePath]
  obtain ⟨hvacant, hwritten⟩ :=
    hleads'.follow_write_self (names_treePath hnames) hparent hzero' hlong hdirectory
  rw [treeNames, Path.extend_eq]
  refine ⟨hvacant, ?_, hwritten⟩
  intro h
  have hlast := congrArg List.getLast? h
  rw [Disk.tracePlace, names_trace, List.getLast?_concat, List.getLast?_concat] at hlast
  exact htrace (Option.some.inj hlast).symm

/-- A script without problems has its tree saved, in a text that is read as the tree. -/
theorem exists_emit {source : String} {r : List (List Char)} {bytes : ByteArray}
    (hfollow : d.follow p = .ok (r, .file bytes)) (hread : readEntry (d.entry p) = .ok source)
    (hclean : (Session.readSource source).diagnostics = [])
    (hlines : Source.lineAfter source.toList < 10 ^ Number.maxDigits)
    (hdirectory : d.entry (treePath p) ≠ .ok .directory)
    (hlong : d.entry (treePath p) ≠ .error .tooLong) :
    ∃ text, d.emit p =
        ({ verdict := .exit 0, output := (treePath p).text ++ "\n", saved := some text },
          d.write (treeNames r) text) ∧
      textOf? text.toUTF8 = some text ∧
      TreeFile.read text = .ok (Stmt.toValues (Session.statementsOf source)) := by
  obtain ⟨text, hwrite, htree, hreturn⟩ := readSource_write? hlines Json.indented_spaced
  have hdeed : emitTree p (d.entry p) (d.entry (treePath p)) =
      { verdict := .exit 0, output := (treePath p).text ++ "\n", saved := some text } := by
    unfold emitTree
    simp only [hread, Session.readSource_statements, hclean, Report.addAll_nil, hwrite]
    rw [if_neg Bool.false_ne_true]
  refine ⟨text, ?_, Disk.textOf?_toUTF8 hreturn, htree⟩
  unfold Disk.emit
  simp only [hdeed, hfollow]
  rfl

theorem exists_follow {source : String} (h : readEntry (d.entry p) = .ok source) :
    ∃ r bytes, d.follow p = .ok (r, .file bytes) ∧ textOf? bytes = some source := by
  unfold Disk.entry at h
  cases hfollow : d.follow p with
  | error o =>
    rw [hfollow] at h
    cases o <;> cases h
  | ok x =>
    obtain ⟨r, e⟩ := x
    rw [hfollow] at h
    cases e with
    | directory => cases h
    | file bytes =>
      refine ⟨r, bytes, rfl, ?_⟩
      simp only [Except.map, readEntry] at h
      split at h
      · next htext =>
        cases h
        exact htext
      · cases h

theorem ne_empty_of_follow {f : String} {r : List (List Char)} {bytes : ByteArray}
    (h : d.follow (.ofText f) = .ok (r, .file bytes)) : f ≠ "" := by
  rintro rfl
  obtain ⟨init, last, -, hnames, -⟩ := Disk.exists_leads_of_follow h
  have hnone : (Path.ofText "").names = [] := rfl
  simp [hnone] at hnames

/-- A file that does not lie where the trace is kept. -/
theorem ne_trace_of_follow {f : String} {v : ℕ} {r : List (List Char)} {bytes : ByteArray}
    (h : d.follow (.ofText f) = .ok (r, .file bytes))
    (htrace : v ≠ 0 → d.entry tracePath ≠ .ok .directory ∧
      ∀ e, d.follow (.ofText f) ≠ .ok (d.tracePlace, e)) :
    v ≠ 0 → d.entry tracePath ≠ .ok .directory ∧ r ≠ d.tracePlace := by
  intro hv
  obtain ⟨hdirectory, hother⟩ := htrace hv
  refine ⟨hdirectory, ?_⟩
  rintro rfl
  exact hother _ h

theorem isName_ending {last : List Char} (h : Path.IsName last) :
    Path.IsName (last ++ treeEnding.toList) := by
  obtain ⟨hne, -, hslash⟩ := h
  refine ⟨by simp [hne], ?_, ?_⟩
  · intro hpoint
    have hlength := congrArg List.length hpoint
    rw [List.length_append, length_treeEnding, List.length_singleton] at hlength
    omega
  · rw [List.mem_append, not_or]
    exact ⟨hslash, by decide⟩

/-- The path of the tree of a file is read back from its text. -/
theorem ofText_treePath {f : String} {r : List (List Char)} {bytes : ByteArray}
    (h : d.follow (.ofText f) = .ok (r, .file bytes)) :
    Path.ofText (treePath (.ofText f)).text = treePath (.ofText f) ∧
      (treePath (.ofText f)).text ≠ "" := by
  have hisName : ∀ name ∈ (Path.ofText f).names, Path.IsName name :=
    fun name hname => Path.isName_of_mem_ofText hname
  obtain ⟨init, last, q, hnames, -⟩ := Disk.exists_leads_of_follow h
  rw [hnames] at hisName
  have hlengthened : ∀ name ∈ (treePath (.ofText f)).names, Path.IsName name := by
    intro name hname
    rw [names_treePath hnames] at hname
    rcases List.mem_append.mp hname with hinit | hlast
    · exact hisName name (List.mem_append_left _ hinit)
    · obtain rfl := List.mem_singleton.mp hlast
      exact isName_ending (hisName last (by simp))
  constructor
  · apply Path.ofText_text _ _ hlengthened
    · rw [root_treePath]
      exact Path.isRoot_ofText f
    · simp [names_treePath hnames]
  · rw [text_treePath (by simp [hnames])]
    intro hempty
    have hlength := congrArg (fun s => s.toList.length) hempty
    simp [length_treeEnding] at hlength

/--
A saved tree stands for its script. Of a script with static problems no tree is saved; the problems
are reported, and running the script reports them first and exits with the same status. Any other
script has its tree saved beside it, unless a directory has the name or the name is too long, and
then running the tree shows, traces and exits with just what running the script does. A run that
traces must not have the trace file for its script, and the number of lines of a script that is saved
has no more digits than a whole number may be written with.
-/
theorem saved_tree_runs_as_script (d : Disk) (f source input : String) (v w : ℕ)
    (hread : readEntry (d.entry (.ofText f)) = .ok source)
    (htrace : v ≠ 0 → ∀ e, d.follow (.ofText f) ≠ .ok (d.tracePlace, e)) :
    ((Session.readSource source).diagnostics ≠ [] →
      d.perform { emit := some f, verbosity := w } input =
        ({ verdict := .exit 65, errors := (problems source).written }, d) ∧
      ((v ≠ 0 → d.entry tracePath ≠ .ok .directory) →
        (d.perform { script := some f, verbosity := v } input).1.verdict = .exit 65 ∧
        ∃ rest, (d.perform { script := some f, verbosity := v } input).1.errors =
          (problems source).written ++ rest)) ∧
    ((Session.readSource source).diagnostics = [] →
      Source.lineAfter source.toList < 10 ^ Number.maxDigits →
      d.entry (treePath (.ofText f)) ≠ .ok .directory →
      d.entry (treePath (.ofText f)) ≠ .error .tooLong →
      ∃ text d', d.perform { emit := some f, verbosity := w } input =
          ({ verdict := .exit 0, output := (treePath (.ofText f)).text ++ "\n",
             saved := some text }, d') ∧
        d'.entry (treePath (.ofText f)) = .ok (.file text.toUTF8) ∧
        (d'.perform { tree := some (treePath (.ofText f)).text, verbosity := v } input).1 =
          (d.perform { script := some f, verbosity := v } input).1 ∧
        (d'.perform { tree := some (treePath (.ofText f)).text, verbosity := v }
            input).2.entry tracePath =
          (d.perform { script := some f, verbosity := v } input).2.entry tracePath) := by
  obtain ⟨r, bytes, hfollow, hsource⟩ := exists_follow hread
  have hf := ne_empty_of_follow hfollow
  have hemit : d.perform { emit := some f, verbosity := w } input = d.emit (.ofText f) := by
    unfold Disk.perform
    simp only [given?, if_neg hf]
  have hother : v ≠ 0 → r ≠ d.tracePlace := by
    rintro hv rfl
    exact htrace hv _ hfollow
  rw [hemit]
  constructor
  · intro hproblems
    refine ⟨emit_of_problems hread hproblems, ?_⟩
    intro hdirectory
    have hfile : readEntry (.ok (.file bytes)) = .ok source := by
      rw [readEntry, hsource]
    rw [(perform_script input hf hfollow fun hv => ⟨hdirectory hv, hother hv⟩).1]
    exact runScript_of_problems hfile hproblems v
  · intro hclean hlines hdirectory hlong
    obtain ⟨text, hdeed, htext, htree⟩ := exists_emit hfollow hread hclean hlines hdirectory hlong
    obtain ⟨hvacant, hbeside, hsaved⟩ := treeNames_vacant hfollow hdirectory hlong
    obtain ⟨hpath, hne⟩ := ofText_treePath hfollow
    have hsame := entry_trace_write hvacant text
    rw [if_neg hbeside] at hsame
    refine ⟨text, _, hdeed, ?_, ?_⟩
    · rw [Disk.entry, hsaved]
      rfl
    · by_cases hblocked : v ≠ 0 ∧ d.entry tracePath = .ok .directory
      · obtain ⟨hv, hblock⟩ := hblocked
        rw [perform_of_trace_directory rfl hv hblock,
          perform_of_trace_directory rfl hv (hsame.trans hblock)]
        exact ⟨rfl, hsame⟩
      · have hfree : v ≠ 0 → d.entry tracePath ≠ .ok .directory :=
          fun hv hblock => hblocked ⟨hv, hblock⟩
        have hran := perform_script input hf hfollow fun hv => ⟨hfree hv, hother hv⟩
        rw [← hpath] at hsaved
        have hreran := perform_tree input hne (hsaved text) (v := v) fun hv => by
          rw [hsame, tracePlace_write]
          exact ⟨hfree hv, hbeside.symm⟩
        have hrun := runTree_eq_runScript (p := .ofText f) (q := treePath (.ofText f)) hsource
          htext htree hclean (.start v)
        rw [hran.1, hran.2, hreran.1, hreran.2, hpath, hrun, hsame]
        exact ⟨rfl, rfl⟩

theorem readEntry_toUTF8 {text : String} (h : '\r' ∉ text.toList) :
    readEntry (.ok (.file text.toUTF8)) = .ok text := by
  rw [readEntry, Disk.textOf?_toUTF8 h]

/-- A working directory below the root with a single file. -/
def single (name content : String) : Disk :=
  { entries := [(["home".toList, name.toList], .file content.toUTF8)], here := ["home".toList] }

/-- A path that leads from the working directory or from the root to a name beside the file. -/
theorem follow_single (name content : String) {p : Path} {other : List Char}
    (hp : p = ⟨[], [other]⟩ ∨ p = ⟨['/'], ["home".toList, other]⟩)
    (hother : other ≠ parentName ∧ ¬ isTooLong other)
    (htext : '\x00' ∉ p.text.toList ∧ p.text.utf8ByteSize ≤ maxPathSize) :
    (single name content).follow p =
      if other = name.toList then .ok (["home".toList, other], .file content.toUTF8)
      else .error .missing := by
  have hfind : (single name content).find? ["home".toList, other] =
      if other = name.toList then some (.file content.toUTF8) else none := by
    unfold Disk.find? single
    by_cases h : other = name.toList
    · simp [h, List.isPrefixOf]
    · have hne : (other == name.toList) = false := by simpa using h
      simp [h, hne, List.lookup_cons, List.isPrefixOf]
  have hlast : (single name content).walk ["home".toList] [other] =
      if other = name.toList then .ok (["home".toList, other], .file content.toUTF8)
      else .error .missing := by
    rw [Disk.walk_name hother.1 hother.2, List.singleton_append, hfind]
    by_cases h : other = name.toList
    · rw [if_pos h, if_pos h]
    · rw [if_neg h, if_neg h]
  rw [Disk.follow_eq _ htext.1 htext.2]
  rcases hp with rfl | rfl
  · exact hlast
  · have hhome : (single name content).find? ["home".toList] = some .directory :=
      Disk.find?_aboveHere List.prefix_rfl
    change (single name content).walk [] ["home".toList, other] = _
    rw [Disk.walk_name (by decide) (by decide), List.nil_append, hhome]
    exact hlast

theorem readEntry_single {name text : String} {p : Path}
    (hp : p = ⟨[], [name.toList]⟩ ∨ p = ⟨['/'], ["home".toList, name.toList]⟩)
    (hname : name.toList ≠ parentName ∧ ¬ isTooLong name.toList)
    (hpath : '\x00' ∉ p.text.toList ∧ p.text.utf8ByteSize ≤ maxPathSize)
    (htext : '\r' ∉ text.toList) :
    readEntry ((single name text).entry p) = .ok text := by
  rw [Disk.entry, follow_single name text hp hname hpath, if_pos rfl]
  exact readEntry_toUTF8 htext

/-- Prints a backslash and a number, and then adds what cannot be added. -/
def uneven : String :=
  "var a = 0.5;\n\x7b print \"\\é\"; print -a; a + nil; \x7d"

theorem saved_tree_runs_as_script_single :
    (∃ text d', (single "a.lox" uneven).perform { emit := some "/home/./a.lox" } "" =
        ({ verdict := .exit 0, output := "/home/a.lox.ast.json" ++ "\n", saved := some text }, d') ∧
      d'.entry (treePath (.ofText "/home/./a.lox")) = .ok (.file text.toUTF8) ∧
      (d'.perform { tree := some "/home/a.lox.ast.json", verbosity := 2 } "").1 =
        ((single "a.lox" uneven).perform { script := some "/home/./a.lox", verbosity := 2 } "").1 ∧
      (d'.perform { tree := some "/home/a.lox.ast.json", verbosity := 2 } "").2.entry tracePath =
        ((single "a.lox" uneven).perform
          { script := some "/home/./a.lox", verbosity := 2 } "").2.entry tracePath) ∧
    (single "a.lox" "print 1; +").perform { emit := some "a.lox" } "" =
      ({ verdict := .exit 65, errors := (problems "print 1; +").written },
        single "a.lox" "print 1; +") ∧
    ((single "a.lox" "print 1; +").perform { script := some "a.lox" } "").1.verdict = .exit 65 ∧
    ∃ rest, ((single "a.lox" "print 1; +").perform { script := some "a.lox" } "").1.errors =
      (problems "print 1; +").written ++ rest := by
  constructor
  · have hpath : Path.ofText "/home/./a.lox" = ⟨['/'], ["home".toList, "a.lox".toList]⟩ := by decide
    have htree : treePath (.ofText "/home/./a.lox") =
        ⟨['/'], ["home".toList, "a.lox.ast.json".toList]⟩ := by decide
    have htext : (treePath (.ofText "/home/./a.lox")).text = "/home/a.lox.ast.json" := by decide
    have htrace : ∀ e, (single "a.lox" uneven).follow (.ofText "/home/./a.lox") ≠
        .ok ((single "a.lox" uneven).tracePlace, e) := by
      intro e he
      rw [follow_single _ _ (.inr hpath) (by decide) (by decide), if_pos rfl] at he
      obtain ⟨hplace, -⟩ := Prod.mk.inj (Except.ok.inj he)
      exact absurd hplace (by decide)
    have hvacant : (single "a.lox" uneven).entry (treePath (.ofText "/home/./a.lox")) =
        .error .missing := by
      rw [Disk.entry, follow_single _ _ (.inr htree) (by decide) (by decide), if_neg (by decide)]
      rfl
    have hsource := readEntry_single (.inr hpath) (by decide) (by decide)
      (show '\r' ∉ uneven.toList by decide +kernel)
    have hclean : (Session.readSource uneven).diagnostics = [] := by decide +kernel
    have hlines : Source.lineAfter uneven.toList < 10 ^ Number.maxDigits := by decide +kernel
    have hrun := (saved_tree_runs_as_script (single "a.lox" uneven) "/home/./a.lox" uneven "" 2 0
      hsource fun _ => htrace).2 hclean hlines (by rw [hvacant]; nofun) (by rw [hvacant]; nofun)
    rw [htext] at hrun
    exact hrun
  · have hpath : Path.ofText "a.lox" = ⟨[], ["a.lox".toList]⟩ := by decide
    have hsource := readEntry_single (.inl hpath) (by decide) (by decide)
      (show '\r' ∉ "print 1; +".toList by decide)
    have hproblems : (Session.readSource "print 1; +").diagnostics ≠ [] := by decide +kernel
    obtain ⟨hemit, hrun⟩ := (saved_tree_runs_as_script (single "a.lox" "print 1; +") "a.lox"
      "print 1; +" "" 0 0 hsource fun hv => absurd rfl hv).1 hproblems
    exact ⟨hemit, hrun fun hv => absurd rfl hv⟩

/-- A script that is the trace file is emptied before it is read, and its saved tree is not. -/
theorem traced_script_is_emptied :
    (Session.readSource "print nil;").diagnostics = [] ∧
    ((single "debug.txt" "print nil;").perform
      { script := some "debug.txt", verbosity := 1 } "").1.output = "" ∧
    (((single "debug.txt" "print nil;").perform { emit := some "debug.txt" } "").2.perform
      { tree := some "debug.txt.ast.json", verbosity := 1 } "").1.output = "nil\n" := by
  decide +kernel

end LoxLang.Command
