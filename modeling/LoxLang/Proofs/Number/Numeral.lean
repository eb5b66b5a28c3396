import LoxLang.Number.Numeral
import LoxLang.Proofs.Json.Scalar
import LoxLang.Proofs.Source.Terminal

/-!
Numerals read as doubles. The reader takes every spelling of a decimal for the double next to that
decimal, and the digits of a whole number too, which is how such a number stands without its `.0`.
-/
namespace LoxLang.Number

open Json (NoDigit signed takeWhile_digits noDigit_fractionChars noDigit_powerChars)
open Text (isAsciiDigit ofDigits)

/-- A test that all ten digits pass. -/
theorem of_isAsciiDigit {p : Char → Bool} (hp : ∀ n < 10, p (Char.ofNat (48 + n))) {c : Char}
    (hc : isAsciiDigit c) : p c := by
  obtain ⟨hlo, hhi⟩ := (Source.isAsciiDigit_iff c).mp hc
  have hdigit := hp (c.toNat - 48) (by omega)
  rwa [Nat.add_sub_cancel' hlo, Char.ofNat_toNat] at hdigit

/-- The reader neither drops the character nor takes it for another one. -/
def isKept (c : Char) : Bool :=
  !Text.isPadding c && Text.toAsciiDigit c == c && c != '_'

theorem isKept_iff {c : Char} :
    isKept c ↔ ¬ Text.isPadding c ∧ Text.toAsciiDigit c = c ∧ c ≠ '_' := by
  simp [isKept, and_assoc]

theorem isKept_of_isAsciiDigit {c : Char} (hc : isAsciiDigit c) : isKept c :=
  of_isAsciiDigit (by decide) hc

theorem isKept_chars (s : Spelling) : ∀ c ∈ s.chars, isKept c :=
  s.forall_mem_chars (fun _ => isKept_of_isAsciiDigit) rfl rfl rfl rfl

theorem trimBy_of_forall_not {p : Char → Bool} {cs : List Char} (h : ∀ c ∈ cs, ¬ p c) :
    Text.trimBy p cs = cs := by
  have hfront : ∀ ds : List Char, (∀ c ∈ ds, ¬ p c) → ds.dropWhile p = ds := by
    intro ds hds
    cases ds with
    | nil => rfl
    | cons d ds => exact List.dropWhile_cons_of_neg (hds d List.mem_cons_self)
  have hback := hfront cs.reverse fun c hc => h c (List.mem_reverse.mp hc)
  rw [Text.trimBy, hfront cs h, hback, List.reverse_reverse]

theorem ungrouped?_of_not_mem {cs : List Char} (h : '_' ∉ cs) : ungrouped? cs = some cs := by
  fun_induction ungrouped? cs with
  | case1 => rfl
  | case2 => simp at h
  | case3 => simp at h
  | case4 => simp at h
  | case5 c rest _ hc ih =>
    rw [ih (List.not_mem_of_not_mem_cons h)]
    rfl

/-- A text of characters that are kept is read by its sign and what follows it. -/
theorem ofText?_signed (negative : Bool) {cs : List Char} (hkept : ∀ c ∈ cs, isKept c)
    (hminus : cs.head? ≠ some '-') (hplus : cs.head? ≠ some '+') {text : String}
    (htext : text.toList = signed negative cs) :
    ofText? text = (unsigned? cs).map fun x => if negative then -x else x := by
  have hall : ∀ c ∈ signed negative cs, isKept c := by
    cases negative with
    | false => exact hkept
    | true => exact List.forall_mem_cons.mpr ⟨by decide, hkept⟩
  have htrim : Text.trimBy Text.isPadding (signed negative cs) = signed negative cs :=
    trimBy_of_forall_not fun c hc => (isKept_iff.mp (hall c hc)).1
  have hmap : (signed negative cs).map Text.toAsciiDigit = signed negative cs :=
    List.map_congr_left (fun c hc => (isKept_iff.mp (hall c hc)).2.1) |>.trans (List.map_id _)
  unfold ofText?
  rw [htext, htrim, hmap]
  cases negative with
  | true => simp [signed]
  | false =>
    have hcs : signed false cs = cs := rfl
    rw [hcs]
    split
    · exact absurd rfl hminus
    · exact absurd rfl hplus
    · simp

/-- What begins with a digit is no word. -/
theorem unsigned?_of_digits {cs : List Char} (hkept : ∀ c ∈ cs, isKept c)
    (hdigit : ∀ c ∈ cs.head?, isAsciiDigit c) (hne : cs ≠ []) :
    unsigned? cs = (decimal? cs).map (·.toFloat) := by
  have hgrouped : ungrouped? cs = some cs :=
    ungrouped?_of_not_mem fun h => (isKept_iff.mp (hkept _ h)).2.2 rfl
  obtain ⟨d, ds, rfl⟩ := List.exists_cons_of_ne_nil hne
  have hword {w : String} (h : String.ofList ((d :: ds).map Char.toLower) = w) :
      w.toList.head? = some d.toLower := by
    rw [← h, String.toList_ofList]
    rfl
  have hlower : d.toLower ≠ 'i' ∧ d.toLower ≠ 'n' := by
    have hboth : (d.toLower != 'i' && d.toLower != 'n') = true :=
      of_isAsciiDigit (p := fun c => c.toLower != 'i' && c.toLower != 'n') (by decide)
        (hdigit d rfl)
    simpa using hboth
  unfold unsigned?
  split
  · next h => exact absurd (Option.some.inj (hword h)).symm hlower.1
  · next h => exact absurd (Option.some.inj (hword h)).symm hlower.1
  · next h => exact absurd (Option.some.inj (hword h)).symm hlower.2
  · rw [hgrouped]
    rfl

theorem exponentPart?_powerChars (s : Spelling) : exponentPart? s.powerChars = some s.shift := by
  have hdigits := s.power_digits
  unfold Spelling.powerChars Spelling.shift
  cases hp : s.power with
  | none => rfl
  | some p =>
    obtain ⟨negative, digits⟩ := p
    obtain ⟨hne, hd⟩ : digits ≠ [] ∧ ∀ c ∈ digits, isAsciiDigit c := hdigits _ hp
    unfold exponentPart?
    cases negative <;> simpa [hne] using hd

theorem decimal?_chars (s : Spelling) : decimal? s.chars = some s.decimal := by
  have hchars : s.chars = s.whole ++ (s.fractionChars ++ s.powerChars) := by
    simp [Spelling.chars]
  have hnone : NoDigit [] := by simp [NoDigit]
  have hrest : NoDigit (s.fractionChars ++ s.powerChars) := by
    simpa using noDigit_fractionChars s hnone
  have hpower : NoDigit s.powerChars := by
    simpa using noDigit_powerChars s hnone
  have hpoint : s.powerChars.head? ≠ some '.' := by
    unfold Spelling.powerChars
    split <;> simp
  unfold decimal?
  rw [hchars, takeWhile_digits s.whole_digits hrest]
  simp only [List.drop_left]
  by_cases hnil : s.fraction = []
  · have hfraction : s.fractionChars = [] := if_pos hnil
    simp [hfraction, hpoint, exponentPart?_powerChars, s.whole_ne_nil, Spelling.decimal, hnil]
  · have hfraction : s.fractionChars = '.' :: s.fraction := if_neg hnil
    simp [hfraction, takeWhile_digits s.fraction_digits hpower, exponentPart?_powerChars,
      s.whole_ne_nil, Spelling.decimal]

theorem decimal?_digits {ds : List Char} (hd : ∀ c ∈ ds, isAsciiDigit c) (hne : ds ≠ []) :
    decimal? ds = some ⟨ofDigits 0 ds, 0⟩ := by
  have htake : ds.takeWhile isAsciiDigit = ds := List.takeWhile_eq_self_iff.mpr hd
  simp [decimal?, htake, exponentPart?, hne]

end LoxLang.Number
