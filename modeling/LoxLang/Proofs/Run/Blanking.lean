import LoxLang.Proofs.Run.Piecewise
import LoxLang.Proofs.Source.Rendering

/-!
Lexical problems as blanks.

A source text in which the characters of all lexical problems are replaced by spaces has the same
tokens on the same lines, and no lexical problem. So it is taken for the same program, does the same
and has the same problems apart from the lexical ones.
-/
namespace LoxLang.Source

open Text

/-- The blank that stands for a character that is skipped; a line still ends where it did. -/
def blankOut (c : Char) : Char :=
  if c = '\n' then c else ' '

/-- The text of a segment, blanked out if the segment is a problem. -/
def Segment.blanked (s : Segment) : List Char :=
  if s.isProblem then s.text.map blankOut else s.text

/-- A source text with its lexical problems blanked out. -/
def blanked (source : String) : String :=
  String.ofList ((segments source.toList).flatMap Segment.blanked)

theorem isBlank_blankOut (c : Char) : isBlank (blankOut c) := by
  unfold blankOut
  split
  · next h =>
    rw [h]
    decide
  · decide

theorem lineEnds_cons (c : Char) (cs : List Char) :
    lineEnds (c :: cs) = lineEnds [c] + lineEnds cs :=
  lineEnds_append [c] cs

theorem lineEnds_blankOut (cs : List Char) : lineEnds (cs.map blankOut) = lineEnds cs := by
  have hchar (c : Char) : lineEnds [blankOut c] = lineEnds [c] := by
    by_cases h : c = '\n'
    · rw [blankOut, if_pos h]
    · rw [blankOut, if_neg h]
      simp [lineEnds, h]
  induction cs with
  | nil => rfl
  | cons c cs ih => rw [List.map_cons, lineEnds_cons, lineEnds_cons c, hchar, ih]

/-- Blanks in front of a text leave nothing behind. -/
theorem scanSegments_blanks {bs : List Char} (h : ∀ c ∈ bs, isBlank c) (line : Nat)
    (cs : List Char) :
    scanSegments line (segments (bs ++ cs)) = scanSegments (line + lineEnds bs) (segments cs) := by
  induction bs generalizing line with
  | nil => rfl
  | cons b bs ih =>
    obtain ⟨hb, hbs⟩ := List.forall_mem_cons.mp h
    rw [List.cons_append, scanSegments_blank hb, ih hbs, lineEnds_cons b bs, Nat.add_assoc]

/-- The texts are the same but for characters that are blanked out in the second. -/
abbrev BlankedOut : List Char → List Char → Prop :=
  List.Forall₂ fun c c' => c' = c ∨ c' = blankOut c

theorem blankedOut_segment (s : Segment) : BlankedOut s.text s.blanked := by
  unfold Segment.blanked
  split
  · exact List.forall₂_map_right_iff.mpr (List.forall₂_same.mpr fun c _ => .inr rfl)
  · exact List.forall₂_same.mpr fun c _ => .inl rfl

theorem Cuts.blankedOut {ss : List Segment} {cs : List Char} (h : Cuts ss cs) :
    BlankedOut cs (ss.flatMap Segment.blanked) := by
  induction h with
  | nil => exact .nil
  | @cons s ss rest _ _ ih =>
    rw [List.flatMap_cons]
    exact List.rel_append (blankedOut_segment s) ih

/-- What has no blanks in it and begins the second text begins the first. -/
theorem BlankedOut.beginning {cs cs' v : List Char} (h : BlankedOut cs cs') (hv : v <+: cs')
    (hchars : ∀ c ∈ v, ¬ isBlank c) : v <+: cs := by
  induction h generalizing v with
  | nil => exact hv
  | @cons c c' cs cs' hc _ ih =>
    cases v with
    | nil => exact List.nil_prefix
    | cons d v =>
      obtain ⟨hd, hlater⟩ := List.forall_mem_cons.mp hchars
      obtain ⟨rfl, hbeginning⟩ := List.cons_prefix_cons.mp hv
      obtain rfl | rfl := hc
      · exact List.cons_prefix_cons.mpr ⟨rfl, ih hbeginning hlater⟩
      · exact absurd (isBlank_blankOut c) hd

variable {s : Segment} {rest rest' : List Char}

/-- A lexeme is cut off in front of a text that is blanked out in places as in front of the text. -/
theorem Segment.IsLexeme.front_blankedOut (hs : s.IsLexeme) (h : Longest s (s.text ++ rest))
    (hrest : BlankedOut rest rest') : Front s (s.text ++ rest') := by
  apply hs.front
  intro v hv hcontinuation
  obtain ⟨k, hregular⟩ := hcontinuation.regular
  have hbeginning : v <+: rest := hrest.beginning hv hcontinuation.not_isBlank
  have hlength := h.longest k _ hregular ((List.prefix_append_right_inj s.text).mpr hbeginning)
  have hpositive := List.length_pos_of_ne_nil hcontinuation.ne_nil
  rw [List.length_append] at hlength
  omega

/-- Behind a comment, a line or the text is ended. -/
theorem Longest.lineEnd_of_comment {ds : List Char} (hds : '\n' ∉ ds)
    (h : Longest ⟨.comment, '/' :: '/' :: ds⟩ ('/' :: '/' :: ds ++ rest)) {c : Char}
    (hc : rest.head? = some c) : c = '\n' := by
  by_contra hline
  obtain ⟨rest, rfl⟩ := List.head?_eq_some_iff.mp hc
  have hlonger : Regular .comment ('/' :: '/' :: (ds ++ [c])) := by
    apply Regular.comment
    simp [hds, Ne.symm hline]
  have hlength := h.longest _ _ hlonger (by simp)
  simp only [List.length_cons, List.length_append] at hlength
  omega

theorem front_comment_blankedOut (hs : s.kind = .comment) (h : Longest s (s.text ++ rest))
    (hrest : BlankedOut rest rest') : Front s (s.text ++ rest') := by
  obtain ⟨kind, text⟩ := s
  cases hs
  have hregular := h.regular
  cases hregular with
  | comment hds =>
    apply front_comment hds
    intro c hc
    cases hrest with
    | nil => cases hc
    | cons hc' _ =>
      cases hc
      -- the end of the line is the same when it is blanked out
      have hline := h.lineEnd_of_comment hds rfl
      obtain rfl | rfl := hc'
      · exact hline
      · rw [hline]
        rfl

/-- A segment that is neither a problem nor a run of blanks is cut off as before. -/
theorem Front.blankedOut (h : Front s (s.text ++ rest)) (hproblem : ¬ s.isProblem)
    (hblank : s.kind ≠ .blank) (hrest : BlankedOut rest rest') : Front s (s.text ++ rest') := by
  generalize hcs : s.text ++ rest = cs at h
  cases h with
  | unterminated => exact absurd rfl hproblem
  | stray => exact absurd rfl hproblem
  | longest h =>
    subst hcs
    by_cases htoken : s.isToken
    · exact Segment.IsLexeme.front_blankedOut ⟨htoken, h.regular⟩ h hrest
    · apply front_comment_blankedOut _ h hrest
      obtain ⟨kind, text⟩ := s
      cases kind with
      | comment => rfl
      | blank => exact absurd rfl hblank
      | unterminated => exact absurd rfl hproblem
      | stray => exact absurd rfl hproblem
      | _ => exact absurd rfl htoken

theorem Front.blank_chars {cs : List Char} (h : Front s cs) (hs : s.kind = .blank) :
    ∀ c ∈ s.text, isBlank c := by
  cases h with
  | unterminated => cases hs
  | stray => cases hs
  | longest h =>
    obtain ⟨kind, text⟩ := s
    cases hs
    have hregular := h.regular
    cases hregular with
    | blank hc hcs => exact List.forall_mem_cons.mpr ⟨hc, hcs⟩

theorem yield_of_isProblem (hs : s.isProblem) (line : Nat) : ∃ e, s.yield line = .error e := by
  obtain ⟨kind, text⟩ := s
  cases kind with
  | unterminated => exact ⟨_, rfl⟩
  | stray => exact ⟨_, rfl⟩
  | _ => cases hs

theorem yield_of_not_isProblem (hs : ¬ s.isProblem) (line : Nat) : ∃ o, s.yield line = .ok o := by
  obtain ⟨kind, text⟩ := s
  cases kind with
  | unterminated => exact absurd rfl hs
  | stray => exact absurd rfl hs
  | _ => exact ⟨_, rfl⟩

/-- Blanked out, segments leave behind the tokens that they leave behind, and no problem. -/
theorem scanSegments_blanked {ss : List Segment} {cs : List Char} (h : Cuts ss cs) (line : Nat) :
    scanSegments line (segments (ss.flatMap Segment.blanked)) =
      ⟨(scanSegments line ss).tokens, []⟩ := by
  induction h generalizing line with
  | nil =>
    have hempty : segments [] = [] := by rw [segments]
    rw [List.flatMap_nil, hempty]
    rfl
  | @cons s ss rest hfront hrest ih =>
    rw [List.flatMap_cons]
    by_cases hproblem : s.isProblem
    · obtain ⟨e, he⟩ := yield_of_isProblem hproblem line
      have hblanks : ∀ c ∈ s.text.map blankOut, isBlank c := by
        intro c hc
        obtain ⟨d, -, rfl⟩ := List.mem_map.mp hc
        exact isBlank_blankOut d
      rw [Segment.blanked, if_pos hproblem, scanSegments_blanks hblanks, lineEnds_blankOut, ih,
        scanSegments, he]
    · rw [Segment.blanked, if_neg hproblem]
      by_cases hblank : s.kind = .blank
      · have hyield : s.yield line = .ok none := by
          simp [Segment.yield, hblank]
        rw [scanSegments_blanks (hfront.blank_chars hblank), ih, scanSegments, hyield]
      · obtain ⟨o, ho⟩ := yield_of_not_isProblem hproblem line
        rw [segments_of_front (hfront.blankedOut hproblem hblank hrest.blankedOut), scanSegments,
          scanSegments, ih, ho]
        cases o <;> rfl

theorem scan_blanked (source : String) : scan (blanked source) = ⟨(scan source).tokens, []⟩ := by
  unfold scan blanked
  rw [String.toList_ofList]
  exact scanSegments_blanked (cuts_segments source.toList) 1

end LoxLang.Source

namespace LoxLang.Session

open Run Source

/-- A source text with its lexical problems blanked out is taken for the same program. -/
theorem readSource_blanked (source : String) :
    (readSource (blanked source)).statements = (readSource source).statements ∧
    (readSource source).diagnostics =
      (scan source).diagnostics ++ (readSource (blanked source)).diagnostics := by
  have htokens : (scan (blanked source)).tokens = (scan source).tokens := by rw [scan_blanked]
  have hnone : (scan (blanked source)).diagnostics = [] := by
    rw [scan_blanked]
    rfl
  unfold readSource
  simp only [htokens, hnone, List.nil_append, and_self]

theorem readSource_not_lexical {source : String} (h : (scan source).errors = []) :
    ∀ d ∈ (readSource source).diagnostics, d.kind ≠ .lexical := by
  intro d hd
  obtain hscan | hparse := List.mem_append.mp hd
  · rw [Scan.diagnostics, h] at hscan
    cases hscan
  · obtain ⟨c, -, rfl⟩ := List.mem_map.mp hparse
    simp [Grammar.Complaint.diagnostic, Diagnostic.atToken]

theorem problems_not_lexical (result : Except Fault Unit) :
    ∀ d ∈ problems result, d.kind ≠ .lexical := by
  rcases result with (e | m) | _
  · exact List.forall_mem_singleton.mpr nofun
  · exact nofun
  · exact nofun

/-- Lexical problems act as blanks. With each character of a problem replaced by a space, a source
text has the same tokens on the same lines and no lexical problem. Run in any session, it ends in
the same way with the same output and the same global variables, and it adds the same problems
except for the lexical ones. -/
theorem problems_act_as_blanks (source : String) :
    scan (blanked source) = ⟨(scan source).tokens, []⟩ ∧
    ∀ s : Session,
      (s.runSource (blanked source)).1 = (s.runSource source).1 ∧
      (s.runSource (blanked source)).2.output = (s.runSource source).2.output ∧
      (s.runSource (blanked source)).2.globals = (s.runSource source).2.globals ∧
      ∃ later, (∀ d ∈ later, d.kind ≠ .lexical) ∧
        (s.runSource source).2.report.diagnostics =
          s.report.diagnostics ++ ((scan source).diagnostics ++ later) ∧
        (s.runSource (blanked source)).2.report.diagnostics = s.report.diagnostics ++ later := by
  refine ⟨scan_blanked source, ?_⟩
  intro s
  obtain ⟨hstatements, hdiagnostics⟩ := readSource_blanked source
  have hran : s.ranSource (blanked source) = s.ranSource source := by
    rw [ranSource, statementsOf, hstatements]
    rfl
  rw [runSource_leaves, runSource_leaves, hran]
  refine ⟨rfl, rfl, rfl, (readSource (blanked source)).diagnostics ++ problems (s.ranSource source).1,
    ?_, ?_, rfl⟩
  · intro d hd
    obtain hd | hd := List.mem_append.mp hd
    · exact readSource_not_lexical (by rw [scan_blanked]) d hd
    · exact problems_not_lexical _ d hd
  · rw [hdiagnostics, List.append_assoc]
    rfl

end LoxLang.Session
