import LoxLang.Proofs.Number.Comparison
import LoxLang.Proofs.Run.Safety

/-!
Equality of the language against its operations.

Equality keeps the kinds apart, takes all that is no number for one, and tells the two zeros from
each other. Values that are equal are the same for every operation: they are printed alike, and an
operator that is given one in place of the other comes to an equal value or to the same complaint.
-/
namespace LoxLang

namespace Value

theorem equal_number (x y : Float) : (number x).equal (number y) = Number.alike x y := by
  have hbits : (number x).equal (number y) ↔ x.toBits = y.toBits := by simp [equal]
  rw [Bool.eq_iff_iff, hbits, Number.alike_iff]
  constructor
  · exact Number.eq_of_toBits_eq
  · rintro rfl
    rfl

theorem equal_ofBits (b c : UInt64) :
    (number (.ofBits b)).equal (number (.ofBits c)) ↔
      b = c ∨ (Number.encodesNoNumber b ∧ Number.encodesNoNumber c) := by
  rw [equal_number, Number.alike_iff, Number.ofBits_eq_iff]

/-- Equality on the language is identity, on ragged strings too. -/
theorem equal_iff_eq {a b : Value} (ha : a.IsLoxOrRagged) : a.equal b ↔ a = b := by
  cases a with
  | nil => cases b <;> simp [equal, same]
  | bool p => cases b <;> simp [equal]
  | string s => cases b <;> simp [equal, same]
  | number x =>
    cases b with
    | number y => rw [equal_number, Number.alike_iff, number.injEq]
    | _ => simp [equal]
  | _ => simp [IsLoxOrRagged, isLox] at ha

end Value

namespace Run

/-- Two outcomes of one operator that its user cannot tell apart: the same mismatch, with the
operator to blame, or related values of the language. -/
inductive Agree (r : Value → Value → Bool) (t : LooseToken) :
    Except Fault Value → Except Fault Value → Prop where
  | mismatch (need : Need) :
      Agree r t (.error (.runtime (.mismatch t need))) (.error (.runtime (.mismatch t need)))
  | value {v w : Value} (hv : v.IsLoxOrRagged) (hw : w.IsLoxOrRagged) (h : r v w) :
      Agree r t (.ok v) (.ok w)

/-- An equivalence on the values of the language, ragged strings among them, that stays within the
kinds and that every operation respects. -/
structure IsCongruence (r : Value → Value → Bool) : Prop where
  refl {a : Value} (ha : a.IsLoxOrRagged) : r a a
  symm {a b : Value} (ha : a.IsLoxOrRagged) (hb : b.IsLoxOrRagged) (h : r a b) : r b a
  trans {a b c : Value} (ha : a.IsLoxOrRagged) (hb : b.IsLoxOrRagged) (hc : c.IsLoxOrRagged)
    (h : r a b) (h' : r b c) : r a c
  typeName {a b : Value} (ha : a.IsLoxOrRagged) (hb : b.IsLoxOrRagged) (h : r a b) :
    a.typeName = b.typeName
  truthy {a b : Value} (ha : a.IsLoxOrRagged) (hb : b.IsLoxOrRagged) (h : r a b) :
    a.truthy = b.truthy
  printed {a b : Value} (ha : a.IsLoxOrRagged) (hb : b.IsLoxOrRagged) (h : r a b) :
    a.printed = b.printed
  unary {t : LooseToken} (hk : t.kind ∈ [TokenKind.bang, .minus]) {a a' : Value}
    (ha : a.IsLoxOrRagged) (ha' : a'.IsLoxOrRagged) (h : r a a') :
    Agree r t (applyUnary (.ofLoose t) a) (applyUnary (.ofLoose t) a')
  binary {t : LooseToken} (hk : t.kind ∈ binaryKinds) {a a' b b' : Value} (ha : a.IsLoxOrRagged)
    (ha' : a'.IsLoxOrRagged) (hb : b.IsLoxOrRagged) (hb' : b'.IsLoxOrRagged) (h : r a a')
    (h' : r b b') : Agree r t (applyBinary (.ofLoose t) a b) (applyBinary (.ofLoose t) a' b')

/-- What an operator comes to agrees with itself. -/
theorem Decides.agree {t : LooseToken} {result : Except Fault Value}
    (h : Decides Value.IsLoxOrRagged t result) : Agree Value.equal t result result := by
  cases h with
  | value hv => exact .value hv hv ((Value.equal_iff_eq hv).mpr rfl)
  | mismatch need => exact .mismatch need

/-- The cases of division come to the quotient of the doubles, also where there is none to take. -/
theorem divide_eq (x y : Float) : divide x y = .ok (x / y) := by
  rw [Number.div_eq_divideByCases, divide, Number.divideByCases]
  split
  · next hy =>
    have hy' : (y == 0) = false := by simpa [bne] using hy
    rw [quotient, hy']
    rfl
  · split
    · rfl
    · rw [Number.copySign_mul_copySign]

/-- Equality is a congruence for the operations of the language. On numbers it goes by comparison
and sign, so over all encodings it takes those of no number for one and tells all others apart, and
division by a zero goes by the signs as well. -/
theorem equal_isCongruence :
    IsCongruence Value.equal ∧
      (∀ x y, (Value.number x).equal (.number y) = Number.alike x y) ∧
      (∀ b c, (Value.number (.ofBits b)).equal (.number (.ofBits c)) ↔
        b = c ∨ (Number.encodesNoNumber b ∧ Number.encodesNoNumber c)) ∧
      ∀ x y, divide x y = .ok (x / y) ∧ x / y = Number.divideByCases x y := by
  refine ⟨?_, Value.equal_number, Value.equal_ofBits,
    fun x y => ⟨divide_eq x y, Number.div_eq_divideByCases x y⟩⟩
  -- What is left for the operators is that they end properly on operands of the language.
  have heq {a b : Value} (ha : a.IsLoxOrRagged) (h : a.equal b) : a = b :=
    (Value.equal_iff_eq ha).mp h
  constructor
  case refl => exact fun ha => (Value.equal_iff_eq ha).mpr rfl
  case symm => exact fun ha hb h => (Value.equal_iff_eq hb).mpr (heq ha h).symm
  case trans =>
    exact fun ha hb _ h h' => (Value.equal_iff_eq ha).mpr ((heq ha h).trans (heq hb h'))
  case typeName => exact fun ha _ h => congrArg Value.typeName (heq ha h)
  case truthy => exact fun ha _ h => congrArg Value.truthy (heq ha h)
  case printed => exact fun ha _ h => congrArg Value.printed (heq ha h)
  case unary =>
    intro t hk a a' ha _ h
    rw [heq ha h]
    exact (decides_applyUnary steady_isLoxOrRagged hk a').agree
  case binary =>
    intro t hk a a' b b' ha ha' hb hb' h h'
    rw [heq ha h, heq hb h']
    exact (decides_applyBinary steady_isLoxOrRagged hk ha' hb').agree

/-- Two of the encodings of no number, with different signs, are equal, and one over each is. -/
theorem equal_isCongruence_noNumbers :
    ((0x7FF8000000000000 : UInt64) ≠ 0xFFF0000000000001 ∧
      (Value.number (.ofBits 0x7FF8000000000000)).equal (.number (.ofBits 0xFFF0000000000001))) ∧
      Agree Value.equal ⟨.slash, .string "/", .nil, 1⟩
        (applyBinary (.ofLoose ⟨.slash, .string "/", .nil, 1⟩) (.number 1)
          (.number (.ofBits 0x7FF8000000000000)))
        (applyBinary (.ofLoose ⟨.slash, .string "/", .nil, 1⟩) (.number 1)
          (.number (.ofBits 0xFFF0000000000001))) := by
  have hequal := (equal_isCongruence.2.2.1 0x7FF8000000000000 0xFFF0000000000001).mpr
    (.inr ⟨by decide, by decide⟩)
  have hone := equal_isCongruence.1.refl (a := .number 1) (.inl rfl)
  refine ⟨⟨by decide, hequal⟩, ?_⟩
  exact equal_isCongruence.1.binary (by decide) (.inl rfl) (.inl rfl) (.inl rfl) (.inl rfl) hone hequal

end Run

end LoxLang
