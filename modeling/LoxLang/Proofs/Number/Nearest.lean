import Mathlib.Algebra.Order.Floor.Semifield
import Mathlib.Data.Int.Log
import Mathlib.Tactic
import LoxLang.Number.Decimal

/-!
The double nearest to a quotient of naturals. It depends on the value of the quotient only, and it
is the double itself where the value is that of a double. It is infinite for the integers from a
threshold on, which have no double.
-/
namespace LoxLang.Number

theorem scaled_pos {base den : ℕ} (hb : 0 < base) (hd : 0 < den) (num : ℕ) (e : ℤ) :
    0 < (scaled base num den e).2 := by
  unfold scaled
  split
  · exact Nat.mul_pos hd (Nat.pow_pos hb)
  · exact hd

/-- A scaled quotient has the value of the quotient over the power. -/
theorem scaled_value {base : ℕ} (hb : 0 < base) (num den : ℕ) (e : ℤ) :
    ((scaled base num den e).1 : ℚ) / (scaled base num den e).2 =
      (num : ℚ) / den / (base : ℚ) ^ e := by
  unfold scaled
  split
  · next he =>
    obtain ⟨k, rfl⟩ := Int.eq_ofNat_of_zero_le he
    simp only [Int.toNat_natCast, Nat.pow_eq]
    push_cast
    rw [zpow_natCast, div_mul_eq_div_div]
  · next he =>
    obtain ⟨k, hk⟩ := Int.eq_ofNat_of_zero_le (show 0 ≤ -e by omega)
    obtain rfl : e = -k := by omega
    simp only [neg_neg, Int.toNat_natCast, Nat.pow_eq]
    push_cast
    rw [zpow_neg, zpow_natCast]
    field_simp

/-- Rounding to a natural depends on the value of the quotient only. -/
theorem roundDiv_congr {n d n' d' : ℕ} (hd : 0 < d) (hd' : 0 < d')
    (h : (n : ℚ) / d = (n' : ℚ) / d') : roundDiv n d = roundDiv n' d' := by
  have hcross : n * d' = n' * d := by
    have hq : (n : ℚ) * d' = n' * d := by
      field_simp at h
      linarith
    exact_mod_cast hq
  have hquot : n / d = n' / d' := by
    rw [← Nat.mul_div_mul_right n d hd', hcross, mul_comm d d', Nat.mul_div_mul_right n' d' hd]
  -- the remainders are to each other as the divisors
  have hrem : (n % d) * d' = (n' % d') * d := by
    have hn := Nat.div_add_mod n d
    have hn' := Nat.div_add_mod n' d'
    rw [hquot] at hn
    zify at hcross hn hn' ⊢
    linear_combination hcross + (d' : ℤ) * hn - (d : ℤ) * hn'
  have hlow : 2 * (n % d) < d ↔ 2 * (n' % d') < d' := by
    rw [← Nat.mul_lt_mul_right hd', ← Nat.mul_lt_mul_right (a := d) (b := 2 * (n' % d')) hd,
      mul_assoc, hrem, mul_assoc, mul_comm d d']
  have hhigh : d < 2 * (n % d) ↔ d' < 2 * (n' % d') := by
    rw [← Nat.mul_lt_mul_right hd', ← Nat.mul_lt_mul_right (a := d) (b := d') hd,
      mul_assoc, hrem, mul_assoc, mul_comm d d']
  unfold roundDiv
  simp only [hquot, hlow, hhigh]

theorem log_bounds {num den : ℕ} (hn : 0 < num) (hd : 0 < den) :
    (num.log2 : ℤ) - den.log2 - 1 ≤ Int.log 2 ((num : ℚ) / den) ∧
      Int.log 2 ((num : ℚ) / den) < (num.log2 : ℤ) - den.log2 + 1 := by
  have hnlo : (2 : ℚ) ^ num.log2 ≤ num := by exact_mod_cast Nat.log2_self_le hn.ne'
  have hnhi : (num : ℚ) < 2 ^ (num.log2 + 1) := by exact_mod_cast Nat.lt_log2_self
  have hdlo : (2 : ℚ) ^ den.log2 ≤ den := by exact_mod_cast Nat.log2_self_le hd.ne'
  have hdhi : (den : ℚ) < 2 ^ (den.log2 + 1) := by exact_mod_cast Nat.lt_log2_self
  have hdq : (0 : ℚ) < den := by exact_mod_cast hd
  have hx : (0 : ℚ) < num / den := by positivity
  have htwo : (2 : ℚ) ≠ 0 := by norm_num
  constructor
  · rw [← Int.zpow_le_iff_le_log (by norm_num) hx, le_div_iff₀ hdq]
    calc ((2 : ℕ) : ℚ) ^ ((num.log2 : ℤ) - den.log2 - 1) * den
        ≤ (2 : ℚ) ^ ((num.log2 : ℤ) - den.log2 - 1) * 2 ^ (den.log2 + 1) := by
          push_cast
          gcongr
      _ = (2 : ℚ) ^ num.log2 := by
          rw [← zpow_natCast, ← zpow_natCast, ← zpow_add₀ htwo]
          congr 1
          push_cast
          ring
      _ ≤ num := hnlo
  · rw [← Int.lt_zpow_iff_log_lt (by norm_num) hx, div_lt_iff₀ hdq]
    calc (num : ℚ) < 2 ^ (num.log2 + 1) := hnhi
      _ = (2 : ℚ) ^ ((num.log2 : ℤ) - den.log2 + 1) * 2 ^ den.log2 := by
          rw [← zpow_natCast, ← zpow_natCast, ← zpow_add₀ htwo]
          congr 1
          push_cast
          ring
      _ ≤ ((2 : ℕ) : ℚ) ^ ((num.log2 : ℤ) - den.log2 + 1) * den := by
          push_cast
          gcongr

/-- The unit in the last place lies 52 binary places below the first digit, but not below the
smallest double. -/
theorem unitExponent_eq {num den : ℕ} (hn : 0 < num) (hd : 0 < den) :
    unitExponent num den = max (Int.log 2 ((num : ℚ) / den) - 52) (-1074) := by
  obtain ⟨hlo, hhi⟩ := log_bounds hn hd
  have hx : (0 : ℚ) < (num : ℚ) / den := by positivity
  set g : ℤ := (num.log2 : ℤ) - den.log2 - 52 with hg
  have htest : (scaled 2 num den g).1 < (scaled 2 num den g).2 * leadingBit ↔
      Int.log 2 ((num : ℚ) / den) < g + 52 := by
    have hpos : (0 : ℚ) < (scaled 2 num den g).2 := by exact_mod_cast scaled_pos (by norm_num) hd num g
    have hvalue := scaled_value (show 0 < 2 by norm_num) num den g
    have hleading : (leadingBit : ℚ) = 2 ^ 52 := by norm_num [leadingBit]
    rw [← Int.lt_zpow_iff_log_lt (by norm_num) hx, ← Nat.cast_lt (α := ℚ), Nat.cast_mul,
      mul_comm, ← div_lt_iff₀ hpos, hvalue, div_lt_iff₀ (by positivity), hleading]
    push_cast
    rw [zpow_add₀ (by norm_num : (2 : ℚ) ≠ 0), mul_comm]
    norm_cast
  unfold unitExponent
  dsimp only
  rw [← hg]
  generalize scaled 2 num den g = nd at htest
  congr 1
  split
  · next h =>
    rw [htest] at h
    omega
  · next h =>
    rw [htest] at h
    omega

theorem nearestMagnitude_zero (den : ℕ) : nearestMagnitude 0 den = 0 :=
  if_pos rfl

theorem nearestMagnitude_of_ne_zero {num : ℕ} (hn : num ≠ 0) (den : ℕ) :
    nearestMagnitude num den = min ((unitExponent num den + 1074).toNat * leadingBit +
      roundDiv (scaled 2 num den (unitExponent num den)).1
        (scaled 2 num den (unitExponent num den)).2) infinityMagnitude := by
  unfold nearestMagnitude
  exact if_neg hn

theorem nearestMagnitude_le (num den : ℕ) : nearestMagnitude num den ≤ infinityMagnitude := by
  by_cases hn : num = 0
  · rw [hn, nearestMagnitude_zero]
    exact Nat.zero_le _
  · rw [nearestMagnitude_of_ne_zero hn]
    exact Nat.min_le_right _ _

/-- The nearest double depends on the value of the quotient only. -/
theorem nearestMagnitude_congr {num den num' den' : ℕ} (hd : 0 < den) (hd' : 0 < den')
    (h : (num : ℚ) / den = (num' : ℚ) / den') :
    nearestMagnitude num den = nearestMagnitude num' den' := by
  have hdq : (0 : ℚ) < den := by exact_mod_cast hd
  have hdq' : (0 : ℚ) < den' := by exact_mod_cast hd'
  by_cases hn : num = 0
  · have hn' : num' = 0 := by
      rw [hn, Nat.cast_zero, zero_div, eq_comm, div_eq_zero_iff] at h
      simpa [hd'.ne'] using h
    rw [hn, hn', nearestMagnitude_zero, nearestMagnitude_zero]
  · have hn' : num' ≠ 0 := by
      rintro rfl
      rw [Nat.cast_zero, zero_div, div_eq_zero_iff] at h
      simp [hn, hd.ne'] at h
    have hunit : unitExponent num den = unitExponent num' den' := by
      rw [unitExponent_eq (by omega) hd, unitExponent_eq (by omega) hd', h]
    have hround := roundDiv_congr
      (scaled_pos (show 0 < 2 by norm_num) hd num (unitExponent num' den'))
      (scaled_pos (show 0 < 2 by norm_num) hd' num' (unitExponent num' den'))
      (by rw [scaled_value (by norm_num), scaled_value (by norm_num), h])
    rw [nearestMagnitude_of_ne_zero hn, nearestMagnitude_of_ne_zero hn', hunit, hround]

/-- Rounding reaches an even natural from half below it on. -/
theorem le_roundDiv_iff {num den m : ℕ} (hd : 0 < den) (hm : 0 < m) (heven : m % 2 = 0) :
    m ≤ roundDiv num den ↔ (2 * m - 1) * den ≤ 2 * num := by
  have hrem := Nat.mod_lt num hd
  have hdiv := Nat.div_add_mod num den
  unfold roundDiv
  dsimp only
  generalize num / den = q at hdiv ⊢
  generalize num % den = r at hrem hdiv ⊢
  have hhalf : (2 * m - 1) * den ≤ 2 * num ↔ m ≤ q ∨ m = q + 1 ∧ den ≤ 2 * r := by
    obtain hle | rfl | hlt : m ≤ q ∨ m = q + 1 ∨ q + 2 ≤ m := by omega
    · have hbelow : (2 * m - 1) * den ≤ 2 * q * den := Nat.mul_le_mul_right den (by omega)
      simp only [hle, true_or, iff_true]
      linarith
    · have hone : (2 * (q + 1) - 1) * den = 2 * (den * q) + den := by
        rw [show 2 * (q + 1) - 1 = 2 * q + 1 by omega]
        ring
      omega
    · have habove : (2 * q + 3) * den ≤ (2 * m - 1) * den := Nat.mul_le_mul_right den (by omega)
      have hnot : ¬ (2 * m - 1) * den ≤ 2 * num := by linarith
      omega
  rw [hhalf]
  split
  · omega
  · split <;> omega

/-- Halfway between the largest finite double and the power of two behind it. -/
def overflowThreshold : ℕ := 2 ^ 1024 - 2 ^ 970

theorem unitExponent_natural {n : ℕ} (hn : 0 < n) : unitExponent n 1 = (Nat.log 2 n : ℤ) - 52 := by
  rw [unitExponent_eq hn Nat.one_pos, Nat.cast_one, div_one, Int.log_natCast]
  omega

theorem scaled_natCast (n k : ℕ) : scaled 2 n 1 k = (n, 2 ^ k) := by
  unfold scaled
  rw [if_pos (Int.natCast_nonneg k), one_mul, Int.toNat_natCast, Nat.pow_eq]

/-- The significand of a natural before it is rounded. -/
theorem scaled_natural {n : ℕ} (hn : 0 < n) :
    leadingBit * (scaled 2 n 1 (unitExponent n 1)).2 ≤ (scaled 2 n 1 (unitExponent n 1)).1 ∧
      (scaled 2 n 1 (unitExponent n 1)).1 <
        2 * leadingBit * (scaled 2 n 1 (unitExponent n 1)).2 := by
  have hleading : leadingBit = 2 ^ 52 := by norm_num [leadingBit]
  have hlo := Nat.pow_log_le_self 2 hn.ne'
  have hhi := Nat.lt_pow_succ_log_self one_lt_two n
  rw [unitExponent_natural hn, hleading]
  generalize Nat.log 2 n = k at hlo hhi ⊢
  rw [pow_succ] at hhi
  unfold scaled
  split
  · next he =>
    obtain ⟨j, hj⟩ := Int.eq_ofNat_of_zero_le he
    obtain rfl : k = 52 + j := by omega
    rw [pow_add] at hlo hhi
    simp only [hj, Int.toNat_natCast, Nat.pow_eq, one_mul]
    constructor
    · exact hlo
    · linarith
  · next he =>
    obtain ⟨j, hj⟩ := Int.eq_ofNat_of_zero_le (show 0 ≤ -((k : ℤ) - 52) by omega)
    have hpow : 2 ^ k * 2 ^ j = 2 ^ 52 := by
      rw [← pow_add]
      congr 1
      omega
    have hpos : 0 < 2 ^ j := Nat.two_pow_pos j
    simp only [hj, Int.toNat_natCast, Nat.pow_eq, mul_one, ← hpow]
    constructor
    · exact Nat.mul_le_mul_right _ hlo
    · nlinarith

theorem leadingBit_even : 0 < leadingBit ∧ leadingBit % 2 = 0 := by
  decide

theorem log_overflowThreshold : Nat.log 2 overflowThreshold = 1023 :=
  Nat.log_eq_of_pow_le_of_lt_pow (by decide +kernel) (by decide +kernel)

theorem two_mul_overflowThreshold :
    2 * overflowThreshold = (2 * (2 * leadingBit) - 1) * 2 ^ 971 := by
  decide +kernel

/-- The double nearest to a natural is infinite if the carry of the significand makes it so. -/
theorem nearestMagnitude_natural {n : ℕ} (hn : 0 < n) :
    nearestMagnitude n 1 = infinityMagnitude ↔
      1025 * leadingBit ≤ Nat.log 2 n * leadingBit +
        roundDiv (scaled 2 n 1 (unitExponent n 1)).1 (scaled 2 n 1 (unitExponent n 1)).2 := by
  have hexponent : (unitExponent n 1 + 1074).toNat = Nat.log 2 n + 1022 := by
    rw [unitExponent_natural hn]
    omega
  have hinfinity : infinityMagnitude = 2047 * leadingBit := by decide
  rw [nearestMagnitude_of_ne_zero hn.ne', min_eq_right_iff, hexponent, hinfinity, add_mul]
  omega

/-- A rounded significand has its leading bit, or the next one after a carry. -/
theorem roundDiv_natural {n : ℕ} (hn : 0 < n) :
    leadingBit ≤ roundDiv (scaled 2 n 1 (unitExponent n 1)).1 (scaled 2 n 1 (unitExponent n 1)).2 ∧
      roundDiv (scaled 2 n 1 (unitExponent n 1)).1 (scaled 2 n 1 (unitExponent n 1)).2 <
        3 * leadingBit := by
  have hpos := scaled_pos two_pos Nat.one_pos n (unitExponent n 1)
  obtain ⟨hleading, heven⟩ := leadingBit_even
  obtain ⟨hlo, hhi⟩ := scaled_natural hn
  generalize scaled 2 n 1 (unitExponent n 1) = q at hpos hlo hhi ⊢
  rw [← not_le, le_roundDiv_iff hpos hleading heven, le_roundDiv_iff hpos (by omega) (by omega)]
  have hless : (2 * leadingBit - 1) * q.2 ≤ 2 * leadingBit * q.2 :=
    Nat.mul_le_mul_right _ (by omega)
  have hmore : 4 * leadingBit * q.2 ≤ (2 * (3 * leadingBit) - 1) * q.2 :=
    Nat.mul_le_mul_right _ (by omega)
  constructor
  · linarith
  · linarith

theorem nearestMagnitude_eq_infinity_iff (n : ℕ) :
    nearestMagnitude n 1 = infinityMagnitude ↔ overflowThreshold ≤ n := by
  obtain rfl | hn := n.eq_zero_or_pos
  · decide +kernel
  obtain ⟨hlo, hhi⟩ := roundDiv_natural hn
  have habove (h : overflowThreshold ≤ n) : 1023 ≤ Nat.log 2 n :=
    log_overflowThreshold.symm.trans_le (Nat.log_mono_right h)
  have hbelow (h : n ≤ overflowThreshold) : Nat.log 2 n ≤ 1023 :=
    (Nat.log_mono_right h).trans_eq log_overflowThreshold
  rw [nearestMagnitude_natural hn]
  obtain hsmall | hlast | hlarge :
      Nat.log 2 n < 1023 ∨ Nat.log 2 n = 1023 ∨ 1024 ≤ Nat.log 2 n := by
    omega
  · have hlog : Nat.log 2 n * leadingBit ≤ 1022 * leadingBit := Nat.mul_le_mul_right _ (by omega)
    omega
  -- only here it takes a carry
  · have hunit : unitExponent n 1 = (971 : ℕ) := by
      rw [unitExponent_natural hn, hlast]
      norm_num
    have hthreshold := two_mul_overflowThreshold
    have hpos := scaled_pos two_pos Nat.one_pos n (971 : ℕ)
    rw [scaled_natCast] at hpos
    rw [hunit, scaled_natCast, hlast]
    generalize 2 ^ 971 = p at hthreshold hpos ⊢
    have hround := @le_roundDiv_iff n p (2 * leadingBit) hpos (by decide) (by decide)
    dsimp only
    omega
  · have hlog : 1024 * leadingBit ≤ Nat.log 2 n * leadingBit := Nat.mul_le_mul_right _ hlarge
    omega

/-- Integers from the threshold on have no double. -/
theorem ofInt?_eq_none_iff (n : ℤ) : ofInt? n = none ↔ overflowThreshold ≤ n.natAbs := by
  rw [← nearestMagnitude_eq_infinity_iff]
  unfold ofInt?
  simp

end LoxLang.Number
