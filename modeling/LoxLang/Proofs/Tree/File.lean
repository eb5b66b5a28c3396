import Mathlib.Tactic.SplitIfs
import LoxLang.Proofs.Json.RoundTrip
import LoxLang.Proofs.Run.Safety
import LoxLang.Proofs.Tree.RoundTrip
import LoxLang.Tree.File

/-! Tree files are read back, and the trees of source texts can be kept in them. -/
namespace LoxLang

open Json (Portable AllPortable MembersPortable)

theorem allPortable_iff {vs : List Value} : AllPortable vs ↔ ∀ v ∈ vs, Portable v := by
  induction vs with
  | nil => simp [AllPortable]
  | cons v vs ih => simp [AllPortable, ih]

theorem membersPortable_iff {ms : List (Text × Value)} :
    MembersPortable ms ↔ ∀ m ∈ ms, m.1.isWhole ∧ Portable m.2 := by
  induction ms with
  | nil => simp [MembersPortable]
  | cons m ms ih =>
    obtain ⟨key, v⟩ := m
    rw [MembersPortable, List.forall_mem_cons, ih, and_assoc]

theorem hereditary_portable : Value.Hereditary Portable where
  text _ := rfl
  list h := allPortable_iff.mpr h
  dict hkeys h := ⟨hkeys, membersPortable_iff.mpr h⟩

/-- The text of a program with portable data has no carriage return and is read as the program. -/
theorem TreeFile.read_write? {style : Json.Style} (hstyle : style.Spaced) {statements : List Value}
    (h : Value.AreTrees Portable statements) :
    ∃ text, write? style statements = some text ∧ read text = .ok statements ∧
      '\r' ∉ text.toList := by
  obtain ⟨o, hto, hof, ho⟩ := Value.programOfObject_programToObject hereditary_portable h
  obtain ⟨text, hwrite, hread, hreturn⟩ := Json.read_write hstyle ho
  refine ⟨text, ?_, ?_, hreturn⟩
  · simp [write?, hto, hwrite, Except.toOption]
  · unfold read
    rw [hread]
    simp only [Except.mapError, bind, Except.bind, hof]

/-- The data of a token that are kept. -/
def Token.IsPortable (t : Token) : Prop :=
  t.literal.isScalar ∧ Portable t.literal ∧ Portable (.integer t.line)

theorem treeData_portable :
    TreeData (fun v => v.isScalar ∧ Portable v) Token.IsPortable Portable where
  nil := trivial
  literal _ h := h
  token _ h := ⟨rfl, h.2.1, h.2.2⟩

theorem literalsHave_portable :
    Grammar.LiteralsHave (fun v => v.isScalar ∧ Portable v) Token.IsPortable := by
  intro t ht _
  unfold Grammar.literalValue
  split
  · exact ⟨rfl, trivial⟩
  · exact ⟨rfl, trivial⟩
  · exact ⟨rfl, trivial⟩
  · exact ⟨ht.1, ht.2.1⟩

theorem portable_toFloat (d : Number.Decimal) : Portable (.number d.toFloat) := by
  change Number.magnitude d.toFloat ≤ Number.infinityMagnitude
  rw [Number.Decimal.toFloat, Number.magnitude_ofMagnitude d.magnitude_le]
  exact d.magnitude_le

theorem portable_natCast {n : ℕ} (h : n < 10 ^ Number.maxDigits) : Portable (.integer n) := by
  change (Nat.toDigits 10 (n : ℤ).natAbs).length ≤ Number.maxDigits
  rw [Int.natAbs_natCast]
  exact (Nat.length_toDigits_le_iff (by omega) (by decide)).mpr h

/-- The tokens of a text whose lines can be counted within the limit of digits can be kept. -/
theorem scan_isPortable {source : String}
    (hlines : Source.lineAfter source.toList < 10 ^ Number.maxDigits) {t : Token}
    (ht : t ∈ (Source.scan source).tokens) : t.IsPortable := by
  have hline : Portable (.integer t.line) := by
    obtain ⟨n, hn, hle⟩ := Source.scan_line_le ht
    rw [hn]
    exact portable_natCast (lt_of_le_of_lt hle hlines)
  rcases Source.mem_scan_tokens ht with rfl | ⟨p, -, hp⟩
  · exact ⟨rfl, trivial, hline⟩
  · rcases hp.literal_cases with hnil | ⟨d, hnumber⟩ | ⟨s, hstring⟩
    · exact ⟨by rw [hnil]; rfl, by rw [hnil]; trivial, hline⟩
    · exact ⟨by rw [hnumber]; rfl, by rw [hnumber]; exact portable_toFloat d, hline⟩
    · exact ⟨by rw [hstring]; rfl, by rw [hstring]; rfl, hline⟩

/-- The tree of a source text is read back from the text that it is kept as. -/
theorem readSource_write? {source : String}
    (hlines : Source.lineAfter source.toList < 10 ^ Number.maxDigits) {style : Json.Style}
    (hstyle : style.Spaced) :
    ∃ text,
      TreeFile.write? style (Stmt.toValues (Session.statementsOf source)) = some text ∧
      TreeFile.read text = .ok (Stmt.toValues (Session.statementsOf source)) ∧
      '\r' ∉ text.toList := by
  obtain ⟨ss, hparse, hss⟩ := Grammar.parse_consists literalsHave_portable
    (fun _ ht => scan_isPortable hlines ht) (Source.exists_eof_mem_scan_tokens source)
  have hread : (Session.readSource source).statements = .ok ss := hparse
  rw [Except.ok.inj ((Session.readSource_statements source).symm.trans hread)]
  apply TreeFile.read_write? hstyle
  exact Stmt.AllConsist.areTrees treeData_portable ss (Stmt.allConsist_iff.mpr hss)

end LoxLang
