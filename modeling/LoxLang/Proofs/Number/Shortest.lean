import LoxLang.Proofs.Number.Nearest

/-!
Decimals that read back. The double nearest to a decimal depends on the value of the decimal only,
and the shortest decimal of a finite double is nearest to that double.
-/
namespace LoxLang.Number

/-- The value of a finite magnitude. -/
def significandValue (m : ℕ) : ℚ :=
  (significand m).1 * (2 : ℚ) ^ (significand m).2

/-- The two kinds of finite doubles: below the leading bit there is a fixed exponent, above it the
leading bit is added. -/
theorem significand_cases (m : ℕ) :
    (m < leadingBit ∧ significand m = (m, -1074)) ∨
    ∃ k f : ℕ, f < leadingBit ∧ m = (k + 1) * leadingBit + f ∧
      significand m = (f + leadingBit, (k : ℤ) - 1074) := by
  have hpos : 0 < leadingBit := by norm_num [leadingBit]
  by_cases h : m / leadingBit = 0
  · left
    refine ⟨(Nat.div_eq_zero_iff_lt hpos).mp h, ?_⟩
    unfold significand
    exact if_pos h
  · right
    have hone : 1 ≤ m / leadingBit := Nat.one_le_iff_ne_zero.mpr h
    refine ⟨m / leadingBit - 1, m % leadingBit, Nat.mod_lt m hpos, ?_, ?_⟩
    · rw [Nat.sub_add_cancel hone, mul_comm]
      exact (Nat.div_add_mod m leadingBit).symm
    · unfold significand
      rw [if_neg h, Nat.cast_sub hone]
      congr 1
      push_cast
      ring

theorem leadingBit_cast : (leadingBit : ℚ) = 2 ^ 52 := by
  norm_num [leadingBit]

theorem significandValue_pos {m : ℕ} (hm : 0 < m) : 0 < significandValue m := by
  have hs : 0 < (significand m).1 := by
    obtain ⟨-, h⟩ | ⟨k, f, -, -, h⟩ := significand_cases m
    · rw [h]
      exact hm
    · rw [h]
      exact Nat.lt_of_lt_of_le (by norm_num [leadingBit]) (Nat.le_add_left leadingBit f)
  have hsq : (0 : ℚ) < (significand m).1 := by exact_mod_cast hs
  unfold significandValue
  positivity

/-- The exponent of the unit in the last place of a finite double is its own exponent. -/
theorem unitExponent_of_significandValue {m num den : ℕ} (hm : 0 < m) (hn : 0 < num)
    (hd : 0 < den) (h : (num : ℚ) / den = significandValue m) :
    unitExponent num den = (significand m).2 := by
  have hvalue := significandValue_pos hm
  rw [unitExponent_eq hn hd, h]
  unfold significandValue at hvalue ⊢
  obtain ⟨hlt, hs⟩ | ⟨k, f, hf, -, hs⟩ := significand_cases m
  · have hltq : (m : ℚ) < 2 ^ 52 := by
      rw [← leadingBit_cast]
      exact_mod_cast hlt
    rw [hs] at hvalue ⊢
    have hlog : Int.log 2 ((m : ℚ) * 2 ^ (-1074 : ℤ)) < -1022 := by
      rw [← Int.lt_zpow_iff_log_lt (by norm_num) hvalue, Nat.cast_ofNat]
      calc (m : ℚ) * 2 ^ (-1074 : ℤ) < 2 ^ (52 : ℤ) * 2 ^ (-1074 : ℤ) := by
            gcongr
            exact_mod_cast hltq
        _ = 2 ^ (-1022 : ℤ) := (zpow_add₀ (by norm_num : (2 : ℚ) ≠ 0) 52 (-1074)).symm
    dsimp only
    omega
  · have hfq : (f : ℚ) < 2 ^ 52 := by
      rw [← leadingBit_cast]
      exact_mod_cast hf
    rw [hs] at hvalue ⊢
    dsimp only at hvalue ⊢
    have hlo : 52 + ((k : ℤ) - 1074) ≤
        Int.log 2 (((f + leadingBit : ℕ) : ℚ) * 2 ^ ((k : ℤ) - 1074)) := by
      rw [← Int.zpow_le_iff_le_log (by norm_num) hvalue]
      push_cast
      rw [zpow_add₀ (by norm_num : (2 : ℚ) ≠ 0), leadingBit_cast]
      gcongr
      norm_cast
      omega
    have hhi : Int.log 2 (((f + leadingBit : ℕ) : ℚ) * 2 ^ ((k : ℤ) - 1074)) <
        53 + ((k : ℤ) - 1074) := by
      rw [← Int.lt_zpow_iff_log_lt (by norm_num) hvalue]
      push_cast
      rw [zpow_add₀ (by norm_num : (2 : ℚ) ≠ 0), leadingBit_cast]
      have hdouble : (2 : ℚ) ^ (53 : ℤ) = 2 ^ 52 + 2 ^ 52 := by norm_num
      gcongr
      rw [hdouble]
      linarith
    omega

theorem roundDiv_one (n : ℕ) : roundDiv n 1 = n := by
  simp [roundDiv, Nat.mod_one]

/-- The double nearest to the value of a finite double is that double. -/
theorem nearestMagnitude_of_significandValue {m num den : ℕ} (hm : 0 < m)
    (hfinite : m < infinityMagnitude) (hd : 0 < den)
    (h : (num : ℚ) / den = significandValue m) : nearestMagnitude num den = m := by
  have hn : 0 < num := by
    rcases Nat.eq_zero_or_pos num with rfl | hn
    · have hvalue := significandValue_pos hm
      rw [← h, Nat.cast_zero, zero_div] at hvalue
      exact absurd hvalue (lt_irrefl 0)
    · exact hn
  have hunit := unitExponent_of_significandValue hm hn hd h
  have hround : roundDiv (scaled 2 num den (significand m).2).1 (scaled 2 num den (significand m).2).2 =
      (significand m).1 := by
    rw [roundDiv_congr (scaled_pos (by norm_num) hd num _) Nat.one_pos _, roundDiv_one]
    rw [scaled_value (by norm_num), h, significandValue, Nat.cast_one, div_one]
    push_cast
    rw [mul_div_assoc, div_self (by positivity), mul_one]
  have hmagnitude : ((significand m).2 + 1074).toNat * leadingBit + (significand m).1 = m := by
    obtain ⟨-, hs⟩ | ⟨k, f, -, hmk, hs⟩ := significand_cases m
    · rw [hs]
      simp
    · have hk : ((k : ℤ) - 1074 + 1074).toNat = k := by omega
      rw [hs]
      dsimp only
      rw [hk]
      rw [hmk]
      ring
  rw [nearestMagnitude_of_ne_zero hn.ne', hunit, hround, hmagnitude]
  exact min_eq_left hfinite.le

theorem significandValue_bounds {m : ℕ} (hm : 0 < m) (hfinite : m < infinityMagnitude) :
    (2 : ℚ) ^ (-1074 : ℤ) ≤ significandValue m ∧ significandValue m < (2 : ℚ) ^ (1024 : ℤ) := by
  have htwo : (2 : ℚ) ≠ 0 := by norm_num
  have hone : (1 : ℚ) ≤ 2 := by norm_num
  unfold significandValue
  obtain ⟨hlt, hs⟩ | ⟨k, f, hf, hmk, hs⟩ := significand_cases m
  · rw [hs]
    have hlo : (1 : ℚ) ≤ m := by exact_mod_cast hm
    have hhi : (m : ℚ) < 2 ^ (52 : ℤ) := by
      rw [zpow_ofNat, ← leadingBit_cast]
      exact_mod_cast hlt
    constructor
    · exact le_mul_of_one_le_left (by positivity) hlo
    · calc (m : ℚ) * 2 ^ (-1074 : ℤ) < 2 ^ (52 : ℤ) * 2 ^ (-1074 : ℤ) := by gcongr
        _ = 2 ^ (52 + -1074 : ℤ) := (zpow_add₀ htwo _ _).symm
        _ ≤ 2 ^ (1024 : ℤ) := zpow_le_zpow_right₀ hone (by omega)
  · rw [hs]
    have hk : k ≤ 2045 := by
      have hinf : infinityMagnitude = 2047 * leadingBit := by norm_num [infinityMagnitude, leadingBit]
      have hlt : (k + 1) * leadingBit < 2047 * leadingBit := by omega
      have hk' := Nat.lt_of_mul_lt_mul_right hlt
      omega
    have hlo : (1 : ℚ) ≤ (f + leadingBit : ℕ) := by
      exact_mod_cast Nat.le_trans (by norm_num [leadingBit]) (Nat.le_add_left leadingBit f)
    have hhi : ((f + leadingBit : ℕ) : ℚ) < 2 ^ (53 : ℤ) := by
      have hfq : (f : ℚ) < leadingBit := by exact_mod_cast hf
      have hdouble : (2 : ℚ) ^ (53 : ℤ) = 2 ^ 52 + 2 ^ 52 := by norm_num
      rw [hdouble, ← leadingBit_cast]
      push_cast
      linarith
    constructor
    · calc (2 : ℚ) ^ (-1074 : ℤ) ≤ 2 ^ ((k : ℤ) - 1074) := zpow_le_zpow_right₀ hone (by omega)
        _ ≤ ((f + leadingBit : ℕ) : ℚ) * 2 ^ ((k : ℤ) - 1074) :=
            le_mul_of_one_le_left (by positivity) hlo
    · calc ((f + leadingBit : ℕ) : ℚ) * 2 ^ ((k : ℤ) - 1074)
          < 2 ^ (53 : ℤ) * 2 ^ ((k : ℤ) - 1074) := by gcongr
        _ = 2 ^ (53 + ((k : ℤ) - 1074)) := (zpow_add₀ htwo _ _).symm
        _ ≤ 2 ^ (1024 : ℤ) := zpow_le_zpow_right₀ hone (by omega)

/-- Powers of ten around all finite doubles. -/
theorem log_ten_bounds {m : ℕ} (hm : 0 < m) (hfinite : m < infinityMagnitude) :
    -331 ≤ Int.log 10 (significandValue m) ∧ Int.log 10 (significandValue m) < 311 := by
  obtain ⟨hlo, hhi⟩ := significandValue_bounds hm hfinite
  have hpos := significandValue_pos hm
  have hsmall : (2 : ℚ) ^ 1074 ≤ 10 ^ 331 := by
    exact_mod_cast (by decide +kernel : 2 ^ 1074 ≤ 10 ^ 331)
  have hlarge : (2 : ℚ) ^ 1024 ≤ 10 ^ 311 := by
    exact_mod_cast (by decide +kernel : 2 ^ 1024 ≤ 10 ^ 311)
  constructor
  · rw [← Int.zpow_le_iff_le_log (by norm_num) hpos, Nat.cast_ofNat]
    refine le_trans ?_ hlo
    rw [zpow_neg, zpow_neg, zpow_ofNat, zpow_ofNat]
    exact inv_anti₀ (by positivity) hsmall
  · rw [← Int.lt_zpow_iff_log_lt (by norm_num) hpos, Nat.cast_ofNat]
    refine lt_of_lt_of_le hhi ?_
    rw [zpow_ofNat, zpow_ofNat]
    exact hlarge

theorem digitCount_bounds {n : ℕ} (hn : 0 < n) :
    10 ^ digitCount n ≤ 10 * n ∧ n < 10 ^ digitCount n := by
  induction n using Nat.strong_induction_on with
  | _ n ih =>
    unfold digitCount
    split
    · next h => exact ⟨by omega, by omega⟩
    · next h =>
      obtain ⟨hlo, hhi⟩ := ih (n / 10) (by omega) (by omega)
      rw [pow_succ]
      constructor
      · omega
      · omega

namespace Decimal

/-- The number that a decimal denotes. -/
def value (d : Decimal) : ℚ :=
  d.digits * (10 : ℚ) ^ d.exponent

theorem quotient_pos (d : Decimal) : 0 < d.quotient.2 := by
  unfold quotient
  split
  · exact Nat.one_pos
  · exact Nat.pow_pos (by norm_num)

theorem quotient_value (d : Decimal) : (d.quotient.1 : ℚ) / d.quotient.2 = d.value := by
  unfold quotient value
  split
  · next h =>
    obtain ⟨k, hk⟩ := Int.eq_ofNat_of_zero_le h
    rw [hk]
    simp only [Int.toNat_natCast, Nat.pow_eq]
    push_cast
    rw [zpow_natCast, div_one]
  · next h =>
    obtain ⟨k, hk⟩ := Int.eq_ofNat_of_zero_le (show 0 ≤ -d.exponent by omega)
    have he : d.exponent = -k := by omega
    rw [he]
    simp only [neg_neg, Int.toNat_natCast, Nat.pow_eq]
    push_cast
    rw [zpow_neg, zpow_natCast, div_eq_mul_inv]

theorem value_pos {d : Decimal} (hd : d.digits ≠ 0) : 0 < d.value := by
  have hq : (0 : ℚ) < d.digits := by exact_mod_cast Nat.pos_of_ne_zero hd
  unfold value
  positivity

/-- The place above the first digit is read off the value. -/
theorem top_eq {d : Decimal} (hd : d.digits ≠ 0) :
    (digitCount d.digits : ℤ) + d.exponent = Int.log 10 d.value + 1 := by
  obtain ⟨hlo, hhi⟩ := digitCount_bounds (Nat.pos_of_ne_zero hd)
  have hpos := value_pos hd
  have hten : (10 : ℚ) ≠ 0 := by norm_num
  have hloq : (10 : ℚ) ^ digitCount d.digits ≤ 10 * d.digits := by exact_mod_cast hlo
  have hhiq : (d.digits : ℚ) < 10 ^ digitCount d.digits := by exact_mod_cast hhi
  have hlog : (digitCount d.digits : ℤ) + d.exponent - 1 ≤ Int.log 10 d.value := by
    rw [← Int.zpow_le_iff_le_log (by norm_num) hpos, Nat.cast_ofNat, zpow_sub_one₀ hten,
      zpow_add₀ hten, zpow_natCast, value]
    have hscaled := mul_le_mul_of_nonneg_right hloq
      (show (0 : ℚ) ≤ 10 ^ d.exponent by positivity)
    linarith
  have hlog' : Int.log 10 d.value < (digitCount d.digits : ℤ) + d.exponent := by
    rw [← Int.lt_zpow_iff_log_lt (by norm_num) hpos, Nat.cast_ofNat, zpow_add₀ hten,
      zpow_natCast, value]
    gcongr
  omega

theorem value_eq_zero_iff (d : Decimal) : d.value = 0 ↔ d.digits = 0 := by
  have hten : (10 : ℚ) ^ d.exponent ≠ 0 := zpow_ne_zero _ (by norm_num)
  simp [value, hten]

/-- The double nearest to a decimal depends on the value of the decimal only. -/
theorem magnitude_congr {d d' : Decimal} (h : d.value = d'.value) :
    d.magnitude = d'.magnitude := by
  have hzero : d.digits = 0 ↔ d'.digits = 0 := by
    rw [← value_eq_zero_iff, ← value_eq_zero_iff, h]
  have hnearest : nearestMagnitude d.quotient.1 d.quotient.2 =
      nearestMagnitude d'.quotient.1 d'.quotient.2 :=
    nearestMagnitude_congr d.quotient_pos d'.quotient_pos
      (by rw [quotient_value, quotient_value, h])
  unfold magnitude
  by_cases hd : d.digits = 0
  · simp only [hd, hzero.mp hd, true_or, if_true]
  · have hd' : d'.digits ≠ 0 := fun h' => hd (hzero.mpr h')
    simp only [hd, hd', top_eq hd, top_eq hd', h, hnearest, false_or]

theorem magnitude_le (d : Decimal) : d.magnitude ≤ infinityMagnitude := by
  unfold magnitude
  dsimp only
  split_ifs
  · exact Nat.zero_le _
  · exact le_rfl
  · exact nearestMagnitude_le _ _

/-- The double nearest to the value of a finite double is that double. -/
theorem magnitude_of_value {d : Decimal} {m : ℕ} (hm : 0 < m) (hfinite : m < infinityMagnitude)
    (h : d.value = significandValue m) : d.magnitude = m := by
  have hd : d.digits ≠ 0 := by
    intro hzero
    have hpos := significandValue_pos hm
    rw [← h, value, hzero, Nat.cast_zero, zero_mul] at hpos
    exact absurd hpos (lt_irrefl 0)
  obtain ⟨hlo, hhi⟩ := log_ten_bounds hm hfinite
  have htop := top_eq hd
  rw [h] at htop
  have hlow : ¬ (d.digits = 0 ∨ (digitCount d.digits : ℤ) + d.exponent < -330) := by
    rw [htop]
    omega
  have hhigh : ¬ 311 < (digitCount d.digits : ℤ) + d.exponent := by
    rw [htop]
    omega
  have hvalue : (d.quotient.1 : ℚ) / d.quotient.2 = significandValue m := by
    rw [quotient_value, h]
  unfold magnitude
  simp only [hlow, hhigh, if_false]
  exact nearestMagnitude_of_significandValue hm hfinite d.quotient_pos hvalue

theorem exact_value (m : ℕ) : (exact m).value = significandValue m := by
  unfold exact value significandValue
  dsimp only
  split
  · next h =>
    obtain ⟨k, hk⟩ := Int.eq_ofNat_of_zero_le h
    rw [hk]
    simp
  · next h =>
    obtain ⟨k, hk⟩ := Int.eq_ofNat_of_zero_le (show 0 ≤ -(significand m).2 by omega)
    have he : (significand m).2 = -k := by omega
    rw [he]
    simp only [neg_neg, Int.toNat_natCast, Nat.pow_eq]
    push_cast
    rw [mul_assoc, zpow_neg, zpow_neg, zpow_natCast, zpow_natCast]
    have hten : (10 : ℚ) ^ k = 5 ^ k * 2 ^ k := by
      rw [← mul_pow]
      norm_num
    rw [hten]
    field_simp

theorem dropZeros_spec (fuel : ℕ) {d : Decimal} (hd : d.digits ≠ 0) :
    (dropZeros fuel d).digits ≠ 0 ∧ (dropZeros fuel d).value = d.value := by
  induction fuel generalizing d with
  | zero => exact ⟨hd, rfl⟩
  | succ fuel ih =>
    unfold dropZeros
    split
    · next h =>
      have hdigits : d.digits / 10 ≠ 0 := by omega
      obtain ⟨hne, hvalue⟩ := @ih ⟨d.digits / 10, d.exponent + 1⟩ hdigits
      refine ⟨hne, hvalue.trans ?_⟩
      have hten : (d.digits : ℚ) = (d.digits / 10 : ℕ) * 10 := by
        exact_mod_cast (Nat.div_mul_cancel (Nat.dvd_of_mod_eq_zero h)).symm
      simp only [value]
      rw [hten, zpow_add_one₀ (by norm_num : (10 : ℚ) ≠ 0)]
      ring
    · exact ⟨hd, rfl⟩

/-- The shortest decimal of a finite double reads back as that double. -/
theorem shortest_spec {m : ℕ} (hm : 0 < m) (hfinite : m < infinityMagnitude) :
    (shortest m).digits ≠ 0 ∧ (shortest m).magnitude = m := by
  have hdropped : ∀ d : Decimal, d.magnitude = m →
      (dropZeros 400 d).digits ≠ 0 ∧ (dropZeros 400 d).magnitude = m := by
    intro d hd
    have hdigits : d.digits ≠ 0 := by
      intro hzero
      simp only [magnitude, hzero, true_or, if_true] at hd
      omega
    obtain ⟨hne, hvalue⟩ := dropZeros_spec 400 hdigits
    exact ⟨hne, (magnitude_congr hvalue).trans hd⟩
  unfold shortest
  rw [if_neg hm.ne']
  apply hdropped
  generalize hfound : List.findSome? _ _ = found
  cases found with
  | none => exact magnitude_of_value hm hfinite (exact_value m)
  | some d =>
    obtain ⟨n, -, hn⟩ := List.exists_of_findSome?_eq_some hfound
    simpa using List.find?_some hn

end Decimal

end LoxLang.Number
