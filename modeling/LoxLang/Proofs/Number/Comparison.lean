import LoxLang.Proofs.Number.Bits

/-!
Comparison of doubles, and what it misses.

The two zeros compare as one, and what is no number compares as nothing, not even as itself. With
the signs beside it, and with all that is no number taken for one, comparison tells exactly the
doubles apart. The signs of the two zeros show in division, which is told by cases here.
-/
namespace LoxLang.Number

open Float.Model
open Float.Model.UnpackedFloat (Sign)

/-- A double by its parts. -/
def unpacked (x : Float) : UnpackedFloat :=
  UnpackedFloat.unpack .binary64 x.toBits.toBitVec

def signOf (x : Float) : Sign :=
  .ofBitVec (signField x.toBits.toBitVec)

theorem withSign_unpacked (x : Float) : withSign (signOf x) (unpacked x) = unpacked x :=
  withSign_unpack _

theorem isNegative_iff (x : Float) : isNegative x ↔ signOf x = .negative := by
  have hlt := x.toBits.toBitVec.isLt
  have hfield : signField x.toBits.toBitVec = 0#1 ↔ ¬ signBit ≤ x.toBits.toNat := by
    rw [← BitVec.toNat_inj, signField_toNat, ← UInt64.toNat_toBitVec, signBit]
    simp only [BitVec.toNat_zero]
    omega
  unfold isNegative signOf Sign.ofBitVec
  by_cases hsign : signField x.toBits.toBitVec = 0#1
  · simp [hsign, hfield.mp hsign]
  · simpa [hsign] using not_not.mp (hfield.not.mp hsign)

theorem isNegative_eq_iff (x y : Float) : isNegative x = isNegative y ↔ signOf x = signOf y := by
  rw [Bool.eq_iff_iff, isNegative_iff, isNegative_iff]
  cases signOf x <;> cases signOf y <;> simp

theorem unpack_of_fields {b : BitVec 64} (h : exponentField b = -1#11 ∧ fractionField b ≠ 0#52) :
    UnpackedFloat.unpack .binary64 b = .notANumber := by
  unfold UnpackedFloat.unpack
  exact (if_pos h.1).trans (if_neg h.2)

/-- The parts of a double make it up again; those that are no numbers have no parts, but there is
only one of them. -/
theorem pack_unpacked (x : Float) :
    UnpackedFloat.pack .binary64 (unpacked x) = x.toBits.toBitVec := by
  by_cases hnan : exponentField x.toBits.toBitVec = -1#11 ∧ fractionField x.toBits.toBitVec ≠ 0#52
  · rw [unpacked, unpack_of_fields hnan]
    exact (x.toModel.valid.eq_packedNaN hnan.1 hnan.2).symm
  · have hpack := pack_withSign_unpack (signOf x) x.toBits.toBitVec hnan
    rw [← unpacked, withSign_unpacked] at hpack
    exact hpack.trans (packComponents_fields _)

theorem eq_of_unpacked_eq {x y : Float} (h : unpacked x = unpacked y) : x = y := by
  apply eq_of_toBits_eq
  apply UInt64.toBitVec_inj.mp
  rw [← pack_unpacked x, ← pack_unpacked y, h]

theorem beq_finite_iff {s t : Sign} {m n : ℕ} {e f : ℤ} (hm : 0 < m) (hn : 0 < n) :
    (UnpackedFloat.finite s m e hm).beq (.finite t n f hn) ↔ s = t ∧ e = f ∧ m = n := by
  cases s with
  | negative =>
    cases t with
    | negative =>
      change (some ((compare e f).then (compare m n)).swap == some .eq) = true ↔ _
      simp
    | positive => exact iff_of_false Bool.false_ne_true (by simp)
  | positive =>
    cases t with
    | negative => exact iff_of_false Bool.false_ne_true (by simp)
    | positive =>
      change (some ((compare e f).then (compare m n)) == some .eq) = true ↔ _
      simp

/-- Parts that compare as the same differ in the sign at most. -/
theorem withSign_eq_of_beq (s : Sign) {u v : UnpackedFloat} (h : u.beq v) :
    withSign s u = withSign s v := by
  cases u with
  | notANumber => cases h
  | infinity t =>
    cases v with
    | infinity => rfl
    | _ => cases t <;> cases h
  | zero =>
    cases v with
    | zero => rfl
    | notANumber => cases h
    | infinity t | finite t _ _ _ => cases t <;> cases h
  | finite t m e hm =>
    cases v with
    | finite t' n f hn =>
      obtain ⟨-, rfl, rfl⟩ := (beq_finite_iff hm hn).mp h
      rfl
    | notANumber => cases h
    | infinity t' => cases t' <;> cases h
    | zero => cases t <;> cases h

theorem beq_self {u : UnpackedFloat} (h : u.isNaN = false) : u.beq u := by
  cases u with
  | notANumber => cases h
  | infinity s => cases s <;> rfl
  | zero s => rfl
  | finite s m e hm => exact (beq_finite_iff hm hm).mpr ⟨rfl, rfl, rfl⟩

/-- All doubles that are no numbers are alike, and others if they compare as the same and have the
same sign. -/
def alike (x y : Float) : Bool :=
  if x.isNaN || y.isNaN then x.isNaN && y.isNaN else x == y && isNegative x == isNegative y

theorem unpacked_of_isNaN {x : Float} (h : x.isNaN) : unpacked x = .notANumber := by
  change (unpacked x).isNaN = true at h
  cases hx : unpacked x with
  | notANumber => rfl
  | _ =>
    rw [hx] at h
    cases h

/-- Alike are only the doubles that are the same. -/
theorem alike_iff (x y : Float) : alike x y ↔ x = y := by
  constructor
  · intro h
    apply eq_of_unpacked_eq
    unfold alike at h
    split_ifs at h with hnan
    · rw [Bool.and_eq_true] at h
      rw [unpacked_of_isNaN h.1, unpacked_of_isNaN h.2]
    · obtain ⟨hsame, hsign⟩ := Bool.and_eq_true_iff.mp h
      rw [beq_iff_eq, isNegative_eq_iff] at hsign
      rw [← withSign_unpacked x, ← withSign_unpacked y, hsign]
      exact withSign_eq_of_beq _ hsame
  · rintro rfl
    unfold alike
    cases hnan : x.isNaN with
    | true => rfl
    | false =>
      have hself : (x == x) = true := beq_self hnan
      simp [hself]

/-- Whether an encoding is one of the many that stand for no number. -/
def encodesNoNumber (b : UInt64) : Bool :=
  infinityMagnitude < b.toNat % signBit

theorem unpack_of_noNumber {b : UInt64} (h : encodesNoNumber b) :
    UnpackedFloat.unpack .binary64 b.toBitVec = .notANumber := by
  apply unpack_of_fields
  by_contra hnumber
  exact (of_decide_eq_true h).not_ge ((isNumber_iff b.toBitVec).mp hnumber)

theorem toBits_ofBits_of_noNumber {b : UInt64} (h : encodesNoNumber b) :
    (Float.ofBits b).toBits = (0 / 0 : Float).toBits :=
  congrArg (fun u => UInt64.ofBitVec (UnpackedFloat.pack .binary64 u)) (unpack_of_noNumber h)

/-- Two encodings stand for the same double if they are the same or both stand for no number. -/
theorem ofBits_eq_iff (b c : UInt64) :
    Float.ofBits b = Float.ofBits c ↔ b = c ∨ (encodesNoNumber b ∧ encodesNoNumber c) := by
  have hkept {a : UInt64} (ha : ¬ encodesNoNumber a) : (Float.ofBits a).toBits = a :=
    toBits_ofBits (not_lt.mp (of_decide_eq_false (Bool.eq_false_iff.mpr ha)))
  have hnone : encodesNoNumber (0 / 0 : Float).toBits := by decide
  constructor
  · intro h
    have hbits := congrArg Float.toBits h
    by_cases hb : encodesNoNumber b
    · by_cases hc : encodesNoNumber c
      · exact .inr ⟨hb, hc⟩
      · rw [toBits_ofBits_of_noNumber hb, hkept hc] at hbits
        exact absurd (hbits ▸ hnone) hc
    · by_cases hc : encodesNoNumber c
      · rw [hkept hb, toBits_ofBits_of_noNumber hc] at hbits
        exact absurd (hbits ▸ hnone) hb
      · rw [hkept hb, hkept hc] at hbits
        exact .inl hbits
  · rintro (rfl | ⟨hb, hc⟩)
    · rfl
    · apply eq_of_toBits_eq
      rw [toBits_ofBits_of_noNumber hb, toBits_ofBits_of_noNumber hc]

theorem eq_noNumber {x : Float} (h : infinityMagnitude < magnitude x) : x = 0 / 0 :=
  eq_of_unpacked_eq (unpack_of_noNumber (decide_eq_true h))

theorem isFinite_iff (x : Float) : x.isFinite ↔ magnitude x < infinityMagnitude := by
  have hexponent : exponentField x.toBits.toBitVec = -1#11 ↔ infinityMagnitude ≤ magnitude x := by
    rw [← BitVec.toNat_inj, exponentField_toNat, magnitude, infinityMagnitude, signBit]
    change x.toBits.toNat / 2 ^ 52 % 2 ^ 11 = 2047 ↔ _
    omega
  have hunpacked : x.isFinite = (unpacked x).isFinite := rfl
  rw [hunpacked, ← not_le, ← hexponent, unpacked]
  by_cases htop : exponentField x.toBits.toBitVec = -1#11
  · rcases unpack_top htop with h | h <;> rw [h] <;>
      exact iff_of_false Bool.false_ne_true (not_not.mpr htop)
  · rcases unpack_below htop with h | ⟨m, e, hm, h⟩ <;> rw [h] <;> exact iff_of_true rfl htop

theorem unpacked_of_beq_zero {x : Float} (h : x == 0) : unpacked x = .zero (signOf x) := by
  have hzero : unpacked 0 = .zero .positive := rfl
  have hsame := withSign_eq_of_beq (signOf x) (u := unpacked x) (v := unpacked 0) h
  rw [withSign_unpacked, hzero] at hsame
  exact hsame

theorem toBits_div (x y : Float) :
    (x / y).toBits = UInt64.ofBitVec (UnpackedFloat.pack .binary64
      (UnpackedFloat.div .binary64 (unpacked x) (unpacked y))) :=
  rfl

/-- A zero divides what is no zero, and is a number, into an infinity of the sign of the quotient. -/
theorem div_unpacked_zero {x : Float} (hzero : (x == 0) = false) (hnan : x.isNaN = false)
    (s : Sign) : UnpackedFloat.div .binary64 (unpacked x) (.zero s) = .infinity (signOf x / s) := by
  have hsign := withSign_unpacked x
  cases hx : unpacked x with
  | notANumber =>
    have hx' : x.isNaN = true := congrArg UnpackedFloat.isNaN hx
    rw [hnan] at hx'
    cases hx'
  | zero t =>
    have hx' : (x == 0) = true := congrArg (UnpackedFloat.beq · (.zero .positive)) hx
    rw [hzero] at hx'
    cases hx'
  | infinity t =>
    rw [hx] at hsign
    cases hsign
    rfl
  | finite t m e hm =>
    rw [hx] at hsign
    cases hsign
    rfl

/-- Division by cases. By a zero, the quotient of a zero and of what is no number is no number, and
every other one is infinite, with the signs of both in its sign. -/
def divideByCases (x y : Float) : Float :=
  if y != 0 then x / y
  else if x == 0 || x.isNaN then 0 / 0
  else if isNegative x == isNegative y then 1 / 0
  else -1 / 0

/-- An infinity with the signs of both factors in its sign. -/
theorem copySign_mul_copySign (x y : Float) :
    copySign (1 / 0) x * copySign 1 y =
      if isNegative x == isNegative y then 1 / 0 else -1 / 0 := by
  unfold copySign
  apply eq_of_toBits_eq
  cases isNegative x <;> cases isNegative y <;> decide +kernel

theorem div_eq_divideByCases (x y : Float) : x / y = divideByCases x y := by
  unfold divideByCases
  split_ifs with hy hx hsign
  · rfl
  -- The divisor is a zero, of either sign.
  all_goals
    have hy' : (y == 0) = true := by simpa [bne] using hy
    apply eq_of_toBits_eq
    rw [toBits_div, unpacked_of_beq_zero hy']
  · obtain hzero | hnan := Bool.or_eq_true_iff.mp hx
    · rw [unpacked_of_beq_zero hzero]
      rfl
    · rw [unpacked_of_isNaN hnan]
      rfl
  all_goals
    obtain ⟨hzero, hnan⟩ := Bool.or_eq_false_iff.mp (Bool.eq_false_iff.mpr hx)
    rw [div_unpacked_zero hzero hnan]
    rw [beq_iff_eq, isNegative_eq_iff] at hsign
  · rw [hsign]
    cases signOf y with
    | negative => rfl
    | positive => rfl
  · generalize signOf x = s at hsign ⊢
    generalize signOf y = t at hsign ⊢
    cases s with
    | negative =>
      cases t with
      | negative => exact absurd rfl hsign
      | positive => rfl
    | positive =>
      cases t with
      | negative => rfl
      | positive => exact absurd rfl hsign

end LoxLang.Number
