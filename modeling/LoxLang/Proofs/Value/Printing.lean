import LoxLang.Proofs.Number.Numeral
import LoxLang.Proofs.Source.Rendering
import LoxLang.Proofs.Value.Congruence

/-!
What is printed tells as much as equality does.

A number is printed as it is written, but a whole one without its `.0`. No two doubles are printed
alike by that, because each is read back from what is printed. The scanner has no signs, words and
exponents in its numerals, and it reads all others back.
-/
namespace LoxLang.Source

/-- A numeral is scanned as one number. -/
theorem scan_of_regular {text : String} (h : Regular .number text.toList) :
    scan text = ⟨[⟨.number, text, .number (numeral text.toList), 1⟩, ⟨.eof, "", .nil, 1⟩], []⟩ := by
  have hlexeme : Segment.IsLexeme ⟨.number, text.toList⟩ := ⟨rfl, h⟩
  have hsegments : segments text.toList = [⟨.number, text.toList⟩] := by
    have hfront := segments_of_front hlexeme.front_nil
    rwa [List.append_nil, segments] at hfront
  have hline : lineEnds text.toList = 0 := by
    apply List.count_eq_zero_of_not_mem
    intro hmem
    exact (h.number_chars _ hmem).1 (by decide)
  rw [scan, hsegments]
  simp [scanSegments, Segment.yield, hline]

end LoxLang.Source

namespace LoxLang.Value

open Json (signed)
open Number (Spelling)
open Text (isAsciiDigit ofDigits)

/-! The end of a whole number. -/

/-- The text without a `.0` at its end. -/
def unpointed (cs : List Char) : List Char :=
  if ['.', '0'] <:+ cs then cs.take (cs.length - 2) else cs

theorem unpointed_append (ds : List Char) : unpointed (ds ++ ['.', '0']) = ds := by
  rw [unpointed, if_pos (List.suffix_append ds _)]
  simp

theorem unpointed_of_not_suffix {cs : List Char} (h : ¬ ['.', '0'] <:+ cs) : unpointed cs = cs :=
  if_neg h

theorem unpointed_of_not_mem {cs : List Char} (h : '.' ∉ cs) : unpointed cs = cs :=
  unpointed_of_not_suffix fun hsuffix => h (hsuffix.subset List.mem_cons_self)

theorem mem_of_mem_unpointed {c : Char} {cs : List Char} (h : c ∈ unpointed cs) : c ∈ cs := by
  unfold unpointed at h
  split at h
  · exact List.mem_of_mem_take h
  · exact h

theorem unpointed_signed (negative : Bool) (cs : List Char) :
    unpointed (signed negative cs) = signed negative (unpointed cs) := by
  cases negative with
  | false => rfl
  | true =>
    by_cases h : ['.', '0'] <:+ cs
    · obtain ⟨ds, rfl⟩ := h
      exact (unpointed_append ('-' :: ds)).trans (congrArg _ (unpointed_append ds).symm)
    · have hsigned : ¬ ['.', '0'] <:+ '-' :: cs := by
        rw [List.suffix_cons_iff]
        rintro (heq | hsuffix)
        · simp at heq
        · exact h hsuffix
      rw [unpointed_of_not_suffix h]
      exact unpointed_of_not_suffix hsigned

theorem toList_printedNumber (x : Float) :
    (printedNumber x).toList = unpointed (Number.text x).toList := by
  have hends : (Number.text x).endsWith ".0" ↔ ['.', '0'] <:+ (Number.text x).toList := by
    rw [String.endsWith_eq_endsWith_toSlice, String.Slice.endsWith_string_iff, String.copy_toSlice]
    rfl
  unfold printedNumber unpointed
  by_cases h : ['.', '0'] <:+ (Number.text x).toList
  · simp only [hends.mpr h, h, if_true]
    rw [← String.dropEnd_toSlice, String.Slice.toString_eq, String.Slice.toList_copy_dropEnd,
      String.copy_toSlice]
  · simp only [Bool.eq_false_iff.mpr (mt hends.mp h), h, Bool.false_eq_true, if_false]

/-! The two printed forms of a spelling. -/

theorem point_not_mem_digits {ds : List Char} (h : ∀ c ∈ ds, isAsciiDigit c) : '.' ∉ ds :=
  fun hmem => Source.not_isAsciiDigit_point (h _ hmem)

theorem point_not_mem_powerChars (s : Spelling) : '.' ∉ s.powerChars := by
  have hne : ∀ c ∈ s.powerChars, c ≠ '.' := by
    refine s.forall_mem_powerChars ?_ ?_ ?_ ?_
    · rintro c hc rfl
      exact Source.not_isAsciiDigit_point hc
    · decide
    · decide
    · decide
  exact fun hmem => hne _ hmem rfl

theorem power_eq_none {s : Spelling} (h : 'e' ∉ s.powerChars) : s.power = none := by
  cases hp : s.power with
  | none => rfl
  | some p =>
    have hmem : 'e' ∈ s.powerChars := by simp [Spelling.powerChars, hp]
    exact absurd hmem h

/-- Only a whole number ends in `.0`. -/
theorem suffix_chars_iff (s : Spelling) :
    ['.', '0'] <:+ s.chars ↔ s.fraction = ['0'] ∧ s.power = none := by
  have hwhole := point_not_mem_digits s.whole_digits
  have hfraction := point_not_mem_digits s.fraction_digits
  have hpower := point_not_mem_powerChars s
  constructor
  · rintro ⟨ds, hds⟩
    by_cases hnil : s.fraction = []
    · have hmem : '.' ∈ s.chars := hds ▸ List.mem_append_right ds List.mem_cons_self
      rw [Spelling.chars, Spelling.fractionChars, if_pos hnil, List.append_nil] at hmem
      exact absurd hmem (by simp [hwhole, hpower])
    · rw [Spelling.chars, Spelling.fractionChars, if_neg hnil, List.append_assoc,
        List.cons_append] at hds
      -- There is one point only, so the zero is all that stands behind it.
      have htail : '.' ∉ s.fraction ++ s.powerChars := by simp [hfraction, hpower]
      have hend := ((List.append_cons_inj_of_notMem hwhole htail).mp hds.symm).2.2
      obtain ⟨hf, -⟩ | ⟨hf, hp⟩ := List.append_eq_singleton_iff.mp hend
      · exact absurd hf hnil
      · exact ⟨hf, power_eq_none (by simp [hp])⟩
  · rintro ⟨hf, hp⟩
    refine ⟨s.whole, ?_⟩
    simp [Spelling.chars, Spelling.fractionChars, Spelling.powerChars, hf, hp]

/-- Without its `.0` a whole number has the same value. -/
theorem toFloat_whole {s : Spelling} (hf : s.fraction = ['0']) (hp : s.power = none) :
    (Number.Decimal.mk (ofDigits 0 s.whole) 0).toFloat = s.decimal.toFloat := by
  have hzero : ofDigits 0 ['0'] = 0 := rfl
  have hvalue : (Number.Decimal.mk (ofDigits 0 s.whole) 0).value = s.decimal.value := by
    simp only [Spelling.decimal, Spelling.shift, Number.Decimal.value, hf, hp,
      Number.ofDigits_append, hzero, List.length_singleton]
    norm_num
    ring
  rw [Number.Decimal.toFloat, Number.Decimal.toFloat, Number.Decimal.magnitude_congr hvalue]

/-- A spelling is printed as it is, or as its whole part alone. -/
theorem unpointed_chars (s : Spelling) :
    unpointed s.chars = s.chars ∨
      unpointed s.chars = s.whole ∧
        (Number.Decimal.mk (ofDigits 0 s.whole) 0).toFloat = s.decimal.toFloat := by
  by_cases h : ['.', '0'] <:+ s.chars
  · obtain ⟨hf, hp⟩ := (suffix_chars_iff s).mp h
    have hchars : s.chars = s.whole ++ ['.', '0'] := by
      simp [Spelling.chars, Spelling.fractionChars, Spelling.powerChars, hf, hp]
    right
    rw [hchars]
    exact ⟨unpointed_append s.whole, toFloat_whole hf hp⟩
  · left
    exact unpointed_of_not_suffix h

/-! Numbers are read back from what is printed. -/

theorem head_chars (s : Spelling) : s.chars.head? = s.whole.head? := by
  rw [Spelling.chars, List.append_assoc, List.head?_append_of_ne_nil _ s.whole_ne_nil]

theorem isAsciiDigit_head (s : Spelling) : ∀ c ∈ s.whole.head?, isAsciiDigit c :=
  fun c hc => s.whole_digits c (List.mem_of_mem_head? hc)

theorem head_unpointed (s : Spelling) : (unpointed s.chars).head? = s.whole.head? := by
  obtain h | ⟨h, -⟩ := unpointed_chars s
  · rw [h, head_chars]
  · rw [h]

theorem unsigned?_unpointed (s : Spelling) :
    Number.unsigned? (unpointed s.chars) = some s.decimal.toFloat := by
  have hkept := Number.isKept_chars s
  obtain h | ⟨h, hvalue⟩ := unpointed_chars s
  · have hne : s.chars ≠ [] := by simp [Spelling.chars, s.whole_ne_nil]
    have hhead : ∀ c ∈ s.chars.head?, isAsciiDigit c := head_chars s ▸ isAsciiDigit_head s
    rw [h, Number.unsigned?_of_digits hkept hhead hne, Number.decimal?_chars]
    rfl
  · have hwhole : ∀ c ∈ s.whole, Number.isKept c :=
      fun c hc => Number.isKept_of_isAsciiDigit (s.whole_digits c hc)
    rw [h, Number.unsigned?_of_digits hwhole (isAsciiDigit_head s) s.whole_ne_nil,
      Number.decimal?_digits s.whole_digits s.whole_ne_nil, ← hvalue]
    rfl

/-- What is printed for a magnitude, behind the sign. -/
def magnitudeChars (m : ℕ) : List Char :=
  unpointed (if m = Number.infinityMagnitude then Number.plain.infinity.toList
    else (Number.plain.decimal (Number.Decimal.shortest m)).toList)

theorem toList_printedNumber_signed {x : Float}
    (hx : Number.magnitude x ≤ Number.infinityMagnitude) :
    (printedNumber x).toList =
      signed (Number.isNegative x) (magnitudeChars (Number.magnitude x)) := by
  rw [toList_printedNumber, Number.text, Json.toList_text Number.plain hx, unpointed_signed]
  rfl

theorem exists_spelling_of_finite {m : ℕ} (hm : m < Number.infinityMagnitude) :
    ∃ s : Spelling, s.chars = (Number.plain.decimal (Number.Decimal.shortest m)).toList ∧
      magnitudeChars m = unpointed s.chars ∧ s.decimal.toFloat = Number.ofMagnitude m := by
  obtain ⟨s, hs, hmagnitude⟩ := Number.plain.exists_spelling_shortest hm
  refine ⟨s, hs, ?_, ?_⟩
  · rw [magnitudeChars, if_neg hm.ne, hs]
  · rw [Number.Decimal.toFloat, hmagnitude]

/-- A magnitude is read back from what is printed for it. -/
theorem unsigned?_magnitudeChars {m : ℕ} (hm : m ≤ Number.infinityMagnitude) :
    Number.unsigned? (magnitudeChars m) = some (Number.ofMagnitude m) := by
  obtain hfinite | rfl := Nat.lt_or_eq_of_le hm
  · obtain ⟨s, -, hchars, hvalue⟩ := exists_spelling_of_finite hfinite
    rw [hchars, unsigned?_unpointed, hvalue]
  · rfl

/-- What is printed for a magnitude is read character by character, and begins with no sign. -/
theorem isKept_magnitudeChars {m : ℕ} (hm : m ≤ Number.infinityMagnitude) :
    (∀ c ∈ magnitudeChars m, Number.isKept c) ∧ (magnitudeChars m).head? ≠ some '-' ∧
      (magnitudeChars m).head? ≠ some '+' := by
  obtain hfinite | rfl := Nat.lt_or_eq_of_le hm
  · obtain ⟨s, -, hchars, -⟩ := exists_spelling_of_finite hfinite
    have hdigit : ∀ c ∈ (unpointed s.chars).head?, isAsciiDigit c :=
      head_unpointed s ▸ isAsciiDigit_head s
    rw [hchars]
    refine ⟨?_, ?_, ?_⟩
    · exact fun c hc => Number.isKept_chars s c (mem_of_mem_unpointed hc)
    · exact fun h => absurd (hdigit _ h) (by decide)
    · exact fun h => absurd (hdigit _ h) (by decide)
  · have hchars : magnitudeChars Number.infinityMagnitude = "inf".toList := rfl
    rw [hchars]
    exact ⟨List.all_eq_true.mp (by decide), by decide, by decide⟩

/-- Every double is read back from what is printed for it. -/
theorem ofText?_printedNumber (x : Float) : Number.ofText? (printedNumber x) = some x := by
  by_cases hx : Number.magnitude x ≤ Number.infinityMagnitude
  · obtain ⟨hkept, hminus, hplus⟩ := isKept_magnitudeChars hx
    rw [Number.ofText?_signed _ hkept hminus hplus (toList_printedNumber_signed hx),
      unsigned?_magnitudeChars hx, Option.map_some, ← Number.eq_ofMagnitude hx]
  · have hnone := Nat.lt_of_not_le hx
    have htext : Number.text x = "nan" := if_pos hnone
    have hprinted : (printedNumber x).toList = signed false "nan".toList := by
      rw [toList_printedNumber, htext]
      exact unpointed_of_not_mem (by decide)
    rw [Number.ofText?_signed false (List.all_eq_true.mp (by decide)) (by decide) (by decide)
      hprinted, Number.eq_noNumber hnone]
    rfl

theorem printedNumber_inj {x y : Float} : printedNumber x = printedNumber y ↔ x = y := by
  constructor
  · intro h
    have hread := ofText?_printedNumber x
    rw [h, ofText?_printedNumber] at hread
    exact (Option.some.inj hread).symm
  · exact congrArg printedNumber

/-- Values of one kind are printed alike only when they are the same. -/
theorem printed_inj {a b : Value} (ha : a.IsLoxOrRagged) (hb : b.IsLoxOrRagged)
    (hkind : a.typeName = b.typeName) : a.printed = b.printed ↔ a = b := by
  cases a with
  | nil =>
    cases b with
    | nil => exact iff_of_true rfl rfl
    | _ => simp_all [IsLoxOrRagged, isLox, typeName]
  | bool p =>
    cases b with
    | bool q => cases p <;> cases q <;> simp [printed]
    | _ => simp_all [IsLoxOrRagged, isLox, typeName]
  | number x =>
    cases b with
    | number y => rw [printed, printed, Text.whole.injEq, printedNumber_inj, number.injEq]
    | _ => simp_all [IsLoxOrRagged, isLox, typeName]
  | string s =>
    cases b with
    | string t => exact (string.injEq s t).to_iff.symm
    | _ => simp_all [IsLoxOrRagged, isLox, typeName]
  | _ => simp [IsLoxOrRagged, isLox] at ha

/-! Numbers without an exponent are scanned. -/

/-- A spelling without an exponent is a numeral of the scanner, with the same value. -/
theorem regular_unpointed {s : Spelling} (hp : s.power = none) :
    Source.Regular .number (unpointed s.chars) ∧
      Source.numeral (unpointed s.chars) = s.decimal.toFloat := by
  have hno := point_not_mem_digits s.whole_digits
  obtain ⟨c, cs, hwhole⟩ := List.exists_cons_of_ne_nil s.whole_ne_nil
  obtain ⟨hc, hcs⟩ := List.forall_mem_cons.mp (hwhole ▸ s.whole_digits)
  obtain h | ⟨h, hvalue⟩ := unpointed_chars s
  · -- A spelling without an exponent has a fraction, and the scanner wants digits in it.
    have hne : s.fraction ≠ [] := s.not_whole.resolve_right (not_not.mpr hp)
    obtain ⟨d, ds, hfraction⟩ := List.exists_cons_of_ne_nil hne
    obtain ⟨hd, hds⟩ := List.forall_mem_cons.mp (hfraction ▸ s.fraction_digits)
    have hchars : s.chars = s.whole ++ '.' :: s.fraction := by
      simp [Spelling.chars, Spelling.fractionChars, Spelling.powerChars, hne, hp]
    have hdecimal : s.decimal = ⟨ofDigits 0 (s.whole ++ s.fraction), -(s.fraction.length : ℤ)⟩ := by
      simp [Spelling.decimal, Spelling.shift, hp]
    rw [h, hchars]
    constructor
    · rw [hwhole, hfraction]
      exact .fraction hc hcs hd hds
    · rw [Source.numeral_of_split hno (.inr rfl), hdecimal]
  · rw [h]
    constructor
    · rw [hwhole]
      exact .whole hc hcs
    · rw [Source.numeral_of_split hno (.inl ⟨rfl, rfl⟩), List.append_nil]
      exact hvalue

/-- Within a kind, printing tells apart exactly what equality does, and a number without a sign
that is written without an exponent is scanned as that number. -/
theorem printed_determines :
    (∀ a b : Value, a.IsLoxOrRagged → b.IsLoxOrRagged → a.typeName = b.typeName →
      (a.printed = b.printed ↔ a.equal b)) ∧
    ∀ x : Float, Number.isNegative x = false → x.isFinite → 'e' ∉ (Number.text x).toList →
      ∃ s : String, (number x).printed = s ∧
        Source.scan s = ⟨[⟨.number, s, .number x, 1⟩, ⟨.eof, "", .nil, 1⟩], []⟩ := by
  constructor
  · intro a b ha hb hkind
    rw [printed_inj ha hb hkind, equal_iff_eq ha]
  · intro x hsign hfinite hplain
    have hm := (Number.isFinite_iff x).mp hfinite
    obtain ⟨s, hs, -, hvalue⟩ := exists_spelling_of_finite hm
    have htext : (Number.text x).toList = s.chars := by
      rw [Number.text, Json.toList_text Number.plain hm.le, hsign, if_neg hm.ne, hs]
      rfl
    have hprinted : (printedNumber x).toList = unpointed s.chars :=
      (toList_printedNumber x).trans (congrArg unpointed htext)
    have hpower : s.power = none := by
      apply power_eq_none
      intro hmem
      exact hplain (htext ▸ List.mem_append_right _ hmem)
    obtain ⟨hregular, hnumeral⟩ := regular_unpointed hpower
    have hx : x = Number.ofMagnitude (Number.magnitude x) := by
      simpa [hsign] using Number.eq_ofMagnitude hm.le
    refine ⟨printedNumber x, rfl, ?_⟩
    rw [Source.scan_of_regular (hprinted ▸ hregular), hprinted, hnumeral, hvalue, ← hx]

/-- A number is scanned from its text, and the two zeros are printed apart. -/
theorem printed_determines_tenth :
    (Number.isNegative 0.1 = false ∧ (0.1 : Float).isFinite ∧ 'e' ∉ (Number.text 0.1).toList) ∧
      Source.scan "0.1" = ⟨[⟨.number, "0.1", .number 0.1, 1⟩, ⟨.eof, "", .nil, 1⟩], []⟩ ∧
      (number 0).printed ≠ (number (-0)).printed := by
  have htenth : Number.isNegative 0.1 = false ∧ (0.1 : Float).isFinite ∧
      'e' ∉ (Number.text 0.1).toList := by decide +kernel
  have hprinted : (number 0.1).printed = "0.1" := by decide +kernel
  have hzeros : (number 0).equal (number (-0)) = false := by decide +kernel
  obtain ⟨s, hs, hscan⟩ := printed_determines.2 0.1 htenth.1 htenth.2.1 htenth.2.2
  obtain rfl : "0.1" = s := Text.whole.inj (hprinted.symm.trans hs)
  refine ⟨htenth, hscan, ?_⟩
  rw [ne_eq, printed_determines.1 (number 0) (number (-0)) (.inl rfl) (.inl rfl) rfl, hzeros]
  decide

end LoxLang.Value
