import Mathlib.Tactic.Ring
import LoxLang.Number.Double

/-!
Doubles and their bits. A double that is a number is given by its sign and its magnitude.
-/
namespace LoxLang.Number

open Float.Model
open Float.Model.UnpackedFloat (Sign packComponents)

abbrev signField (b : BitVec 64) : BitVec 1 :=
  @UnpackedFloat.unpackSign .binary64 b

abbrev exponentField (b : BitVec 64) : BitVec 11 :=
  @UnpackedFloat.unpackExponent .binary64 b

abbrev fractionField (b : BitVec 64) : BitVec 52 :=
  @UnpackedFloat.unpackMantissa .binary64 b

theorem packComponents_toNat (s : Sign) (e : BitVec 11) (f : BitVec 52) :
    (packComponents .binary64 s e f).toNat =
      s.toBitVec.toNat * 2 ^ 63 + e.toNat * 2 ^ 52 + f.toNat := by
  unfold packComponents
  rw [BitVec.toNat_append, BitVec.toNat_append, ← Nat.shiftLeft_add_eq_or_of_lt f.isLt,
    ← Nat.shiftLeft_add_eq_or_of_lt e.isLt, Nat.shiftLeft_eq, Nat.shiftLeft_eq]
  ring

theorem fractionField_toNat (b : BitVec 64) : (fractionField b).toNat = b.toNat % 2 ^ 52 := by
  simp [fractionField, UnpackedFloat.unpackMantissa, BitVec.extractLsb]

theorem exponentField_toNat (b : BitVec 64) :
    (exponentField b).toNat = b.toNat / 2 ^ 52 % 2 ^ 11 := by
  simp [exponentField, UnpackedFloat.unpackExponent, BitVec.extractLsb, Nat.shiftRight_eq_div_pow]

theorem signField_toNat (b : BitVec 64) : (signField b).toNat = b.toNat / 2 ^ 63 % 2 := by
  unfold signField UnpackedFloat.unpackSign
  simp [BitVec.extractLsb, Nat.shiftRight_eq_div_pow]

/-- Replaces the sign. -/
def withSign (s : Sign) : UnpackedFloat → UnpackedFloat
  | .notANumber => .notANumber
  | .infinity _ => .infinity s
  | .zero _ => .zero s
  | .finite _ m e hm => .finite s m e hm

theorem append_leading (f : BitVec 52) : (1#1 ++ f).toNat = 2 ^ 52 + f.toNat := by
  rw [BitVec.toNat_append, ← Nat.shiftLeft_add_eq_or_of_lt f.isLt, Nat.shiftLeft_eq]
  simp

/-- How a finite double is packed: above the leading bit with its exponent, below it with none. -/
theorem pack_finite (s : Sign) {m : ℕ} {e : ℤ} (hm : 0 < m) {k : ℕ}
    (hk : (e + 1075).toNat = k) (hlt : k < 2047) :
    UnpackedFloat.pack .binary64 (.finite s m e hm) =
      if m.log2 = 52 then packComponents .binary64 s (BitVec.ofNat 11 k) (BitVec.ofNat 52 m)
      else packComponents .binary64 s 0#11 (BitVec.ofNat 52 m) := by
  have hbiased : (e + (1023 : ℕ) + (52 : ℕ)).toNat = k := by
    rw [← hk]
    congr 1
    push_cast
    ring
  have hsmall : ¬ 2 ^ 11 ≤ k + 1 := by omega
  have hlog : m.log2 + 1 = 53 ↔ m.log2 = 52 := by omega
  change (if 2 ^ 11 ≤ (e + (1023 : ℕ) + (52 : ℕ)).toNat + 1 then _ else
    if m.log2 + 1 = 53 then
      packComponents .binary64 s (BitVec.ofNat 11 (e + (1023 : ℕ) + (52 : ℕ)).toNat)
        (BitVec.ofNat 52 m)
    else packComponents .binary64 s 0#11 (BitVec.ofNat 52 m)) = _
  rw [hbiased, if_neg hsmall]
  simp only [hlog]

/-- Packing what was unpacked keeps the exponent and the fraction, unless it is not a number. -/
theorem pack_withSign_unpack (s : Sign) (b : BitVec 64)
    (hb : ¬ (exponentField b = -1#11 ∧ fractionField b ≠ 0#52)) :
    UnpackedFloat.pack .binary64 (withSign s (UnpackedFloat.unpack .binary64 b)) =
      packComponents .binary64 s (exponentField b) (fractionField b) := by
  have hfraction : BitVec.ofNat 52 (fractionField b).toNat = fractionField b := by simp
  have hfield : (exponentField b).toNat < 2 ^ 11 := (exponentField b).isLt
  unfold UnpackedFloat.unpack
  by_cases htop : exponentField b = -1#11
  · have hzero : fractionField b = 0#52 := by
      by_contra hne
      exact hb ⟨htop, hne⟩
    rw [if_pos htop, if_pos hzero, htop, hzero]
    rfl
  · rw [if_neg htop]
    by_cases hsub : exponentField b = 0#11
    · rw [if_pos hsub]
      by_cases hzero : fractionField b = 0#52
      · rw [dif_pos hzero, hsub, hzero]
        rfl
      · rw [dif_neg hzero]
        have hpos : 0 < (fractionField b).toNat := by
          apply Nat.pos_of_ne_zero
          intro h
          exact hzero (BitVec.eq_of_toNat_eq h)
        have hlog : (fractionField b).toNat.log2 ≠ 52 := by
          have hlt := (Nat.log2_lt hpos.ne').mpr (fractionField b).isLt
          omega
        have hk : (((exponentField b).toNat : ℤ) - (1023 + 52 : ℕ) + 1 + 1075).toNat = 1 := by
          rw [hsub]
          rfl
        have hpack := (pack_finite s hpos hk (by omega)).trans (if_neg hlog)
        rw [hfraction, ← hsub] at hpack
        exact hpack
    · rw [if_neg hsub]
      have hmax : (exponentField b).toNat ≠ 2047 := by
        intro h
        exact htop (BitVec.eq_of_toNat_eq h)
      have hk : (((exponentField b).toNat : ℤ) - (1023 + 52 : ℕ) + 1075).toNat =
          (exponentField b).toNat := by omega
      have hpos : 0 < (1#1 ++ fractionField b).toNat := by
        rw [append_leading]
        omega
      have hlog : (1#1 ++ fractionField b).toNat.log2 = 52 := by
        rw [append_leading]
        have hlt := (fractionField b).isLt
        apply (Nat.log2_eq_iff (by omega)).mpr
        omega
      have hlow : BitVec.ofNat 52 (1#1 ++ fractionField b).toNat = fractionField b := by
        rw [append_leading]
        apply BitVec.eq_of_toNat_eq
        rw [BitVec.toNat_ofNat, Nat.add_mod_left, Nat.mod_eq_of_lt (fractionField b).isLt]
      have hpack := (pack_finite s hpos hk (by omega)).trans (if_pos hlog)
      rw [hlow, BitVec.ofNat_toNat, BitVec.setWidth_eq] at hpack
      exact hpack

theorem Sign.toBitVec_ofBitVec (v : BitVec 1) : (Sign.ofBitVec v).toBitVec = v := by
  revert v
  decide

theorem packComponents_fields (b : BitVec 64) :
    packComponents .binary64 (.ofBitVec (signField b)) (exponentField b) (fractionField b) = b := by
  apply BitVec.eq_of_toNat_eq
  rw [packComponents_toNat, Sign.toBitVec_ofBitVec, signField_toNat, exponentField_toNat,
    fractionField_toNat]
  have hlt := b.isLt
  omega

/-- With the greatest exponent there is an infinity, or no number. -/
theorem unpack_top {b : BitVec 64} (h : exponentField b = -1#11) :
    UnpackedFloat.unpack .binary64 b = .notANumber ∨
      UnpackedFloat.unpack .binary64 b = .infinity (.ofBitVec (signField b)) := by
  by_cases hzero : fractionField b = 0#52
  · exact .inr ((if_pos h).trans (if_pos hzero))
  · exact .inl ((if_pos h).trans (if_neg hzero))

/-- With any other exponent there is a zero or a finite number. -/
theorem unpack_below {b : BitVec 64} (h : exponentField b ≠ -1#11) :
    UnpackedFloat.unpack .binary64 b = .zero (.ofBitVec (signField b)) ∨
      ∃ m e hm, UnpackedFloat.unpack .binary64 b = .finite (.ofBitVec (signField b)) m e hm := by
  by_cases hsub : exponentField b = 0#11
  · by_cases hzero : fractionField b = 0#52
    · exact .inl ((if_neg h).trans ((if_pos hsub).trans (dif_pos hzero)))
    · exact .inr ⟨_, _, _, (if_neg h).trans ((if_pos hsub).trans (dif_neg hzero))⟩
  · exact .inr ⟨_, _, _, (if_neg h).trans (if_neg hsub)⟩

theorem withSign_unpack (b : BitVec 64) :
    withSign (.ofBitVec (signField b)) (UnpackedFloat.unpack .binary64 b) =
      UnpackedFloat.unpack .binary64 b := by
  by_cases htop : exponentField b = -1#11
  · rcases unpack_top htop with h | h <;> rw [h] <;> rfl
  · rcases unpack_below htop with h | ⟨m, e, hm, h⟩ <;> rw [h] <;> rfl

theorem isNumber_iff (b : BitVec 64) :
    ¬ (exponentField b = -1#11 ∧ fractionField b ≠ 0#52) ↔
      b.toNat % signBit ≤ infinityMagnitude := by
  have hexponent : exponentField b = -1#11 ↔ b.toNat / 2 ^ 52 % 2 ^ 11 = 2047 := by
    rw [← BitVec.toNat_inj, exponentField_toNat]
    rfl
  have hfraction : fractionField b = 0#52 ↔ b.toNat % 2 ^ 52 = 0 := by
    rw [← BitVec.toNat_inj, fractionField_toNat]
    rfl
  rw [hexponent, ne_eq, hfraction, signBit, infinityMagnitude]
  omega

theorem toBits_ofBits {a : UInt64} (h : a.toNat % signBit ≤ infinityMagnitude) :
    (Float.ofBits a).toBits = a := by
  have hpack := pack_withSign_unpack (.ofBitVec (signField a.toBitVec)) a.toBitVec
    ((isNumber_iff a.toBitVec).mpr h)
  rw [withSign_unpack, packComponents_fields] at hpack
  exact congrArg UInt64.ofBitVec hpack

theorem toUInt64_toNat {m : ℕ} (h : m ≤ infinityMagnitude) : m.toUInt64.toNat = m := by
  rw [infinityMagnitude] at h
  exact Nat.mod_eq_of_lt (by omega)

theorem toBits_ofMagnitude {m : ℕ} (h : m ≤ infinityMagnitude) :
    (ofMagnitude m).toBits.toNat = m := by
  have hm := toUInt64_toNat h
  unfold ofMagnitude
  rw [toBits_ofBits _, hm]
  rw [hm]
  exact (Nat.mod_le _ _).trans h

@[simp]
theorem magnitude_ofMagnitude {m : ℕ} (h : m ≤ infinityMagnitude) :
    magnitude (ofMagnitude m) = m := by
  unfold magnitude
  rw [toBits_ofMagnitude h, signBit]
  rw [infinityMagnitude] at h
  omega

theorem isNegative_ofMagnitude {m : ℕ} (h : m ≤ infinityMagnitude) :
    isNegative (ofMagnitude m) = false := by
  unfold isNegative
  rw [toBits_ofMagnitude h, signBit]
  rw [infinityMagnitude] at h
  simp only [decide_eq_false_iff_not]
  omega

theorem neg_unpack (b : BitVec 64) :
    (UnpackedFloat.unpack .binary64 b).neg =
      withSign (-.ofBitVec (signField b)) (UnpackedFloat.unpack .binary64 b) := by
  by_cases htop : exponentField b = -1#11
  · rcases unpack_top htop with h | h <;> rw [h] <;> rfl
  · rcases unpack_below htop with h | ⟨m, e, hm, h⟩ <;> rw [h] <;> rfl

theorem Sign.toBitVec_neg_ofBitVec (v : BitVec 1) :
    (-Sign.ofBitVec v).toBitVec.toNat = 1 - v.toNat := by
  revert v
  decide

/-- Negation turns the sign bit over and leaves the rest. -/
theorem toBits_neg {x : Float} (h : magnitude x ≤ infinityMagnitude) :
    (-x).toBits.toNat = if isNegative x then magnitude x else magnitude x + signBit := by
  have hpack := pack_withSign_unpack (-.ofBitVec (signField x.toBits.toBitVec)) x.toBits.toBitVec
    ((isNumber_iff x.toBits.toBitVec).mpr h)
  rw [← neg_unpack] at hpack
  have hbits : (-x).toBits.toNat = _ := congrArg BitVec.toNat hpack
  rw [packComponents_toNat, Sign.toBitVec_neg_ofBitVec, signField_toNat, exponentField_toNat,
    fractionField_toNat] at hbits
  rw [hbits]
  have hlt := x.toBits.toBitVec.isLt
  unfold isNegative magnitude
  simp only [decide_eq_true_eq, signBit, ← UInt64.toNat_toBitVec]
  split_ifs <;> omega

theorem eq_of_toBits_eq {x y : Float} (h : x.toBits = y.toBits) : x = y := by
  obtain ⟨⟨_, _⟩⟩ := x
  obtain ⟨⟨_, _⟩⟩ := y
  cases h
  rfl

/-- A double that is a number is its magnitude with its sign. -/
theorem eq_ofMagnitude {x : Float} (h : magnitude x ≤ infinityMagnitude) :
    x = if isNegative x then -ofMagnitude (magnitude x) else ofMagnitude (magnitude x) := by
  have hlt : x.toBits.toNat < 2 ^ 64 := x.toBits.toNat_lt
  have hmagnitude := magnitude_ofMagnitude h
  have hneg := @toBits_neg (ofMagnitude (magnitude x)) (hmagnitude.symm ▸ h)
  rw [isNegative_ofMagnitude h, hmagnitude] at hneg
  apply eq_of_toBits_eq
  apply UInt64.toNat.inj
  split_ifs with hsign
  · rw [hneg, if_neg Bool.false_ne_true]
    simp only [isNegative, decide_eq_true_eq] at hsign
    rw [magnitude]
    rw [signBit] at *
    omega
  · rw [toBits_ofMagnitude h]
    simp only [isNegative, decide_eq_true_eq] at hsign
    exact (Nat.mod_eq_of_lt (by omega)).symm

theorem infinity_eq_ofMagnitude : (1 / 0 : Float) = ofMagnitude infinityMagnitude := rfl

theorem neg_infinity_eq_ofMagnitude : (-1 / 0 : Float) = -ofMagnitude infinityMagnitude := rfl

end LoxLang.Number
