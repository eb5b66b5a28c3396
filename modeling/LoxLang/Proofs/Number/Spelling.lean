import Mathlib.Tactic.SplitIfs
import LoxLang.Proofs.Number.Shortest
import LoxLang.Text.Digit

/-!
The written forms of decimals: every layout writes a decimal as a whole part, a fraction and an
exponent that together denote it.
-/
namespace LoxLang.Number

open Text (isAsciiDigit ofDigits)

theorem isAsciiDigit_of_isDigit {c : Char} (h : c.isDigit) : isAsciiDigit c := by
  simpa [Char.isDigit, isAsciiDigit, Char.le_def] using h

theorem isAsciiDigit_of_mem_toDigits {c : Char} {n : ℕ} (h : c ∈ Nat.toDigits 10 n) :
    isAsciiDigit c :=
  isAsciiDigit_of_isDigit (Nat.isDigit_of_mem_toDigits (by omega) (by omega) h)

theorem ofDigits_eq (acc : ℕ) (cs : List Char) : ofDigits acc cs = Nat.ofDigitChars 10 cs acc :=
  rfl

@[simp]
theorem ofDigits_toDigits (n : ℕ) : ofDigits 0 (Nat.toDigits 10 n) = n := by
  rw [ofDigits_eq, Nat.ofDigitChars_ten_toDigits]

theorem ofDigits_append (a b : List Char) :
    ofDigits 0 (a ++ b) = 10 ^ b.length * ofDigits 0 a + ofDigits 0 b := by
  rw [ofDigits_eq, ofDigits_eq, ofDigits_eq, Nat.ofDigitChars_append,
    Nat.ofDigitChars_eq_ofDigitChars_zero]

@[simp]
theorem ofDigits_zeros (n : ℕ) : ofDigits 0 (List.replicate n '0') = 0 := by
  rw [ofDigits_eq, Nat.ofDigitChars_replicate_zero, Nat.mul_zero]

/-- The digits of a positive number start with none that could be left out. -/
theorem head_toDigits_ne {n : ℕ} (hn : n ≠ 0) : (Nat.toDigits 10 n).head? ≠ some '0' := by
  induction n using Nat.strong_induction_on with
  | _ n ih =>
    by_cases hlt : n < 10
    · rw [Nat.toDigits_of_lt_base hlt]
      interval_cases n <;> simp_all [Nat.digitChar]
    · rw [Nat.toDigits_of_base_le (by omega) (by omega), List.head?_append_of_ne_nil _
        Nat.toDigits_ne_nil]
      exact ih (n / 10) (by omega) (by omega)

/-- A number in digits: a whole part, a fraction and an exponent, not both of them missing. -/
structure Spelling where
  whole : List Char
  fraction : List Char
  /-- Whether the exponent is negative, and its digits. -/
  power : Option (Bool × List Char)
  whole_digits : ∀ c ∈ whole, isAsciiDigit c
  whole_ne_nil : whole ≠ []
  whole_head : whole.head? = some '0' → whole = ['0']
  fraction_digits : ∀ c ∈ fraction, isAsciiDigit c
  power_digits : ∀ p ∈ power, p.2 ≠ [] ∧ ∀ c ∈ p.2, isAsciiDigit c
  not_whole : fraction ≠ [] ∨ power ≠ none

namespace Spelling

def fractionChars (s : Spelling) : List Char :=
  if s.fraction = [] then [] else '.' :: s.fraction

def powerChars (s : Spelling) : List Char :=
  match s.power with
  | none => []
  | some (negative, digits) => 'e' :: (if negative then '-' else '+') :: digits

/-- The text of a number. -/
def chars (s : Spelling) : List Char :=
  s.whole ++ s.fractionChars ++ s.powerChars

/-- The exponent that is written. -/
def shift (s : Spelling) : ℤ :=
  match s.power with
  | none => 0
  | some (negative, digits) => if negative then -(ofDigits 0 digits : ℤ) else ofDigits 0 digits

/-- The decimal that is written. -/
def decimal (s : Spelling) : Decimal :=
  ⟨ofDigits 0 (s.whole ++ s.fraction), s.shift - s.fraction.length⟩

/-- The characters of an exponent are digits behind a mark and a sign. -/
theorem forall_mem_powerChars {p : Char → Prop} (hdigit : ∀ c, isAsciiDigit c → p c) (he : p 'e')
    (hminus : p '-') (hplus : p '+') (s : Spelling) : ∀ c ∈ s.powerChars, p c := by
  unfold powerChars
  split
  · exact List.forall_mem_nil _
  · next negative digits hpower =>
    have hsign : p (if negative then '-' else '+') := by
      cases negative with
      | true => exact hminus
      | false => exact hplus
    have hdigits : ∀ c ∈ digits, p c := fun c hc => hdigit c ((s.power_digits _ hpower).2 c hc)
    exact List.forall_mem_cons.mpr ⟨he, List.forall_mem_cons.mpr ⟨hsign, hdigits⟩⟩

theorem forall_mem_chars {p : Char → Prop} (hdigit : ∀ c, isAsciiDigit c → p c) (hpoint : p '.')
    (he : p 'e') (hminus : p '-') (hplus : p '+') (s : Spelling) : ∀ c ∈ s.chars, p c := by
  have hfraction : ∀ c ∈ s.fractionChars, p c := by
    have hdigits : ∀ c ∈ s.fraction, p c := fun c hc => hdigit c (s.fraction_digits c hc)
    unfold fractionChars
    split
    · exact List.forall_mem_nil _
    · exact List.forall_mem_cons.mpr ⟨hpoint, hdigits⟩
  intro c hc
  rw [chars, List.append_assoc, List.mem_append, List.mem_append] at hc
  obtain hc | hc | hc := hc
  · exact hdigit c (s.whole_digits c hc)
  · exact hfraction c hc
  · exact s.forall_mem_powerChars hdigit he hminus hplus c hc

end Spelling

theorem toList_toString (n : ℕ) : (toString n).toList = Nat.toDigits 10 n := by
  rw [Nat.toString_eq_repr, Nat.toList_repr]

theorem toList_padded (width n : ℕ) :
    (padded width n).toList =
      List.replicate (width - (Nat.toDigits 10 n).length) '0' ++ Nat.toDigits 10 n := by
  unfold padded
  rw [String.toList_append, String.toList_ofList, toList_toString, ← String.length_toList,
    toList_toString]

theorem isAsciiDigit_zeros {c : Char} {n : ℕ} (h : c ∈ List.replicate n '0') : isAsciiDigit c := by
  rw [List.eq_of_mem_replicate h]
  rfl

theorem digits_head {n : ℕ} (h : (Nat.toDigits 10 n).head? = some '0') :
    Nat.toDigits 10 n = ['0'] := by
  by_cases hn : n = 0
  · rw [hn, Nat.toDigits_zero]
  · exact absurd h (head_toDigits_ne hn)

theorem spelling_whole {d : Decimal} (hd : d.digits ≠ 0 ∨ d.exponent = 0) (he : 0 ≤ d.exponent) :
    ∃ s : Spelling, s.chars = Nat.toDigits 10 d.digits ++
        List.replicate d.exponent.toNat '0' ++ ['.', '0'] ∧
      s.decimal.value = d.value := by
  have hhead : (Nat.toDigits 10 d.digits ++ List.replicate d.exponent.toNat '0').head? = some '0' →
      Nat.toDigits 10 d.digits ++ List.replicate d.exponent.toNat '0' = ['0'] := by
    intro h
    rw [List.head?_append_of_ne_nil _ Nat.toDigits_ne_nil] at h
    rcases hd with hne | hzero
    · exact absurd h (head_toDigits_ne hne)
    · rw [digits_head h, hzero]
      rfl
  refine ⟨{
    whole := Nat.toDigits 10 d.digits ++ List.replicate d.exponent.toNat '0'
    fraction := ['0']
    power := none
    whole_digits := ?_
    whole_ne_nil := by simp
    whole_head := hhead
    fraction_digits := by simp [isAsciiDigit]
    power_digits := by simp
    not_whole := by simp }, ?_, ?_⟩
  · intro c hc
    rcases List.mem_append.mp hc with hdigit | hzero
    · exact isAsciiDigit_of_mem_toDigits hdigit
    · exact isAsciiDigit_zeros hzero
  · simp [Spelling.chars, Spelling.fractionChars, Spelling.powerChars]
  · obtain ⟨k, hk⟩ := Int.eq_ofNat_of_zero_le he
    have hlast : ofDigits 0 ['0'] = 0 := rfl
    simp only [Spelling.decimal, Spelling.shift, Decimal.value, ofDigits_append, ofDigits_zeros,
      ofDigits_toDigits, hlast, hk, Int.toNat_natCast, List.length_replicate, List.length_singleton]
    push_cast
    rw [zpow_natCast]
    norm_num
    ring

theorem spelling_point {d : Decimal} {n : ℕ} (hpos : 0 < n)
    (hn : (n : ℤ) = d.exponent + (Nat.toDigits 10 d.digits).length) (he : d.exponent < 0) :
    ∃ s : Spelling, s.chars = (Nat.toDigits 10 d.digits).take n ++
        '.' :: (Nat.toDigits 10 d.digits).drop n ∧
      s.decimal = d := by
  have hlong : n < (Nat.toDigits 10 d.digits).length := by omega
  have hdrop : (Nat.toDigits 10 d.digits).drop n ≠ [] := by
    rw [ne_eq, List.drop_eq_nil_iff]
    omega
  refine ⟨{
    whole := (Nat.toDigits 10 d.digits).take n
    fraction := (Nat.toDigits 10 d.digits).drop n
    power := none
    whole_digits := fun c hc => isAsciiDigit_of_mem_toDigits (List.mem_of_mem_take hc)
    whole_ne_nil := ?_
    whole_head := ?_
    fraction_digits := fun c hc => isAsciiDigit_of_mem_toDigits (List.mem_of_mem_drop hc)
    power_digits := by simp
    not_whole := .inl hdrop }, ?_, ?_⟩
  · rw [ne_eq, List.take_eq_nil_iff]
    intro h
    rcases h with hzero | hnil
    · omega
    · exact Nat.toDigits_ne_nil hnil
  · intro h
    rw [List.head?_take, if_neg hpos.ne'] at h
    rw [digits_head h, List.length_singleton] at hlong
    omega
  · simp [Spelling.chars, Spelling.fractionChars, Spelling.powerChars, hdrop]
  · simp only [Spelling.decimal, Spelling.shift, List.take_append_drop, ofDigits_toDigits,
      List.length_drop]
    rw [Decimal.mk.injEq]
    omega

theorem spelling_small {d : Decimal} {n : ℕ}
    (hn : (n : ℤ) = -(d.exponent + (Nat.toDigits 10 d.digits).length)) :
    ∃ s : Spelling, s.chars = '0' :: '.' :: List.replicate n '0' ++ Nat.toDigits 10 d.digits ∧
      s.decimal = d := by
  have hfraction : List.replicate n '0' ++ Nat.toDigits 10 d.digits ≠ [] := by simp
  refine ⟨{
    whole := ['0']
    fraction := List.replicate n '0' ++ Nat.toDigits 10 d.digits
    power := none
    whole_digits := by simp [isAsciiDigit]
    whole_ne_nil := by simp
    whole_head := by simp
    fraction_digits := ?_
    power_digits := by simp
    not_whole := .inl hfraction }, ?_, ?_⟩
  · intro c hc
    rcases List.mem_append.mp hc with hzero | hdigit
    · exact isAsciiDigit_zeros hzero
    · exact isAsciiDigit_of_mem_toDigits hdigit
  · simp only [Spelling.chars, Spelling.fractionChars, Spelling.powerChars, if_neg hfraction]
    simp
  · have hfirst : ofDigits 0 ['0'] = 0 := rfl
    simp only [Spelling.decimal, Spelling.shift, ofDigits_append, ofDigits_zeros, ofDigits_toDigits,
      hfirst, List.length_append, List.length_replicate, mul_zero, zero_add]
    rw [Decimal.mk.injEq]
    omega

theorem spelling_power {d : Decimal} (width : ℕ) {leading : ℤ}
    (hl : leading = d.exponent + (Nat.toDigits 10 d.digits).length - 1) :
    ∃ s : Spelling, s.chars = (Nat.toDigits 10 d.digits).take 1 ++
        (if (Nat.toDigits 10 d.digits).length = 1 then []
          else '.' :: (Nat.toDigits 10 d.digits).drop 1) ++
        'e' :: (if leading < 0 then '-' else '+') :: (padded width leading.natAbs).toList ∧
      s.decimal = d := by
  have hpos : 0 < (Nat.toDigits 10 d.digits).length := Nat.length_toDigits_pos
  have hdrop : (Nat.toDigits 10 d.digits).drop 1 = [] ↔ (Nat.toDigits 10 d.digits).length = 1 := by
    rw [List.drop_eq_nil_iff]
    omega
  refine ⟨{
    whole := (Nat.toDigits 10 d.digits).take 1
    fraction := (Nat.toDigits 10 d.digits).drop 1
    power := some (decide (leading < 0), (padded width leading.natAbs).toList)
    whole_digits := fun c hc => isAsciiDigit_of_mem_toDigits (List.mem_of_mem_take hc)
    whole_ne_nil := ?_
    whole_head := ?_
    fraction_digits := fun c hc => isAsciiDigit_of_mem_toDigits (List.mem_of_mem_drop hc)
    power_digits := ?_
    not_whole := .inr (by simp) }, ?_, ?_⟩
  · rw [ne_eq, List.take_eq_nil_iff]
    simp
  · intro h
    obtain ⟨c, cs, hcs⟩ := List.exists_cons_of_ne_nil (@Nat.toDigits_ne_nil d.digits 10)
    rw [hcs] at h ⊢
    simpa using h
  · intro p hp
    obtain rfl := Option.mem_some.mp hp
    rw [toList_padded]
    constructor
    · simp
    · intro c hc
      rcases List.mem_append.mp hc with hzero | hdigit
      · exact isAsciiDigit_zeros hzero
      · exact isAsciiDigit_of_mem_toDigits hdigit
  · simp only [Spelling.chars, Spelling.fractionChars, Spelling.powerChars, hdrop,
      decide_eq_true_eq]
  · have hpower : ofDigits 0 (padded width leading.natAbs).toList = leading.natAbs := by
      rw [toList_padded, ofDigits_append, ofDigits_zeros, ofDigits_toDigits, mul_zero, zero_add]
    simp only [Spelling.decimal, Spelling.shift, List.take_append_drop, ofDigits_toDigits,
      List.length_drop, hpower, decide_eq_true_eq]
    rw [Decimal.mk.injEq]
    split_ifs <;> omega

/-- Every layout writes a decimal that has no zeros in front. -/
theorem Layout.exists_spelling (layout : Layout) {d : Decimal}
    (hd : d.digits ≠ 0 ∨ d.exponent = 0) :
    ∃ s : Spelling, s.chars = (layout.decimal d).toList ∧ s.decimal.value = d.value := by
  unfold Layout.decimal
  simp only [toList_toString]
  generalize hl : d.exponent + ((Nat.toDigits 10 d.digits).length : ℤ) - 1 = leading
  by_cases hrange : layout.least ≤ leading ∧ leading < layout.limit
  · rw [if_pos hrange]
    split_ifs with he hleading
    · rw [String.toList_ofList]
      exact spelling_whole hd he
    · have hn : ((leading + 1).toNat : ℤ) = d.exponent + (Nat.toDigits 10 d.digits).length := by
        omega
      obtain ⟨s, hs, hdecimal⟩ := spelling_point (by omega) hn (by omega)
      exact ⟨s, by rw [hs, String.toList_ofList], by rw [hdecimal]⟩
    · have hn : ((-leading - 1).toNat : ℤ) =
          -(d.exponent + (Nat.toDigits 10 d.digits).length) := by omega
      obtain ⟨s, hs, hdecimal⟩ := spelling_small hn
      exact ⟨s, by rw [hs, String.toList_ofList], by rw [hdecimal]⟩
  · rw [if_neg hrange]
    obtain ⟨s, hs, hdecimal⟩ := spelling_power layout.width hl.symm
    refine ⟨s, ?_, by rw [hdecimal]⟩
    rw [hs, String.toList_append, String.toList_append, String.toList_ofList]
    split_ifs <;> simp

/-- What a layout writes denotes the nearest double of the decimal. -/
theorem Layout.exists_spelling_shortest (layout : Layout) {m : ℕ} (hm : m < infinityMagnitude) :
    ∃ s : Spelling, s.chars = (layout.decimal (Decimal.shortest m)).toList ∧
      s.decimal.magnitude = m := by
  by_cases hzero : m = 0
  · subst hzero
    obtain ⟨s, hs, hvalue⟩ := layout.exists_spelling (d := ⟨0, 0⟩) (.inr rfl)
    exact ⟨s, hs, Decimal.magnitude_congr hvalue⟩
  · obtain ⟨hd, hread⟩ := Decimal.shortest_spec (Nat.pos_of_ne_zero hzero) hm
    obtain ⟨s, hs, hvalue⟩ := layout.exists_spelling (.inl hd)
    exact ⟨s, hs, (Decimal.magnitude_congr hvalue).trans hread⟩

end LoxLang.Number
