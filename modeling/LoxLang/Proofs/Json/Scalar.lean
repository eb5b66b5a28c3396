import Mathlib.Tactic.SplitIfs
import LoxLang.Json.Read
import LoxLang.Json.Write
import LoxLang.Proofs.Number.Bits
import LoxLang.Proofs.Number.Spelling

/-! Numbers, words and strings in front of other text are read as they were written. -/
namespace LoxLang.Json

open Number (Spelling isAsciiDigit_of_mem_toDigits)
open Text (isAsciiDigit ofDigits)

/-- The text goes on with nothing that could belong to a number. -/
def Delimits (rest : List Char) : Prop :=
  ∀ c ∈ rest.head?, ¬ isAsciiDigit c ∧ c ≠ '.' ∧ c ≠ 'e' ∧ c ≠ 'E'

/-- The text goes on with no digit. -/
def NoDigit (rest : List Char) : Prop :=
  ∀ c ∈ rest.head?, ¬ isAsciiDigit c

theorem Delimits.noDigit {rest : List Char} (h : Delimits rest) : NoDigit rest :=
  fun c hc => (h c hc).1

theorem takeWhile_digits {digits rest : List Char} (hd : ∀ c ∈ digits, isAsciiDigit c)
    (hr : NoDigit rest) : (digits ++ rest).takeWhile isAsciiDigit = digits := by
  rw [List.takeWhile_append_of_pos hd]
  cases rest with
  | nil => simp
  | cons c cs => simp [hr c rfl]

theorem dropWhile_digits {digits rest : List Char} (hd : ∀ c ∈ digits, isAsciiDigit c)
    (hr : NoDigit rest) : (digits ++ rest).dropWhile isAsciiDigit = rest := by
  rw [List.dropWhile_append_of_pos hd]
  cases rest with
  | nil => simp
  | cons c cs => simp [hr c rfl]

/-- The whole part of a number, as the reader takes it. -/
theorem integral_eq {whole rest : List Char} (hd : ∀ c ∈ whole, isAsciiDigit c)
    (hne : whole ≠ []) (hhead : whole.head? = some '0' → whole = ['0']) (hr : NoDigit rest) :
    (if (whole ++ rest).head? == some '0' then ['0']
      else (whole ++ rest).takeWhile isAsciiDigit) = whole := by
  rw [List.head?_append_of_ne_nil _ hne]
  by_cases hzero : whole.head? = some '0'
  · rw [if_pos (by simp [hzero]), hhead hzero]
  · rw [if_neg (by simp [hzero]), takeWhile_digits hd hr]

theorem fraction_of_ne_nil {digits rest : List Char} (hd : ∀ c ∈ digits, isAsciiDigit c)
    (hne : digits ≠ []) (hr : NoDigit rest) :
    fraction ('.' :: (digits ++ rest)) = (digits, rest) := by
  unfold fraction
  simp only [takeWhile_digits hd hr, dropWhile_digits hd hr]

theorem fraction_of_head {rest : List Char} (h : rest.head? ≠ some '.') :
    fraction rest = ([], rest) := by
  unfold fraction
  split
  · next cs => exact absurd rfl h
  · rfl

theorem exponent?_of_delimits {rest : List Char} (h : Delimits rest) : exponent? rest = none := by
  unfold exponent?
  cases rest with
  | nil => rfl
  | cons c cs =>
    have hc := h c rfl
    simp [hc.2.2.1, hc.2.2.2]

theorem exponent?_of_digits (negative : Bool) {digits rest : List Char}
    (hd : ∀ c ∈ digits, isAsciiDigit c) (hne : digits ≠ []) (hr : NoDigit rest) :
    exponent? ('e' :: (if negative then '-' else '+') :: (digits ++ rest)) =
      some (if negative then -(ofDigits 0 digits : ℤ) else ofDigits 0 digits, rest) := by
  unfold exponent?
  cases negative <;> simp [takeWhile_digits hd hr, dropWhile_digits hd hr, hne]

theorem noDigit_powerChars (s : Spelling) {rest : List Char} (h : NoDigit rest) :
    NoDigit (s.powerChars ++ rest) := by
  unfold Spelling.powerChars
  split
  · exact h
  · intro c hc
    obtain rfl := Option.mem_some.mp hc
    decide

theorem noDigit_fractionChars (s : Spelling) {rest : List Char} (h : NoDigit rest) :
    NoDigit (s.fractionChars ++ (s.powerChars ++ rest)) := by
  unfold Spelling.fractionChars
  split
  · exact noDigit_powerChars s h
  · intro c hc
    obtain rfl := Option.mem_some.mp hc
    decide

theorem head_powerChars_ne (s : Spelling) {rest : List Char} (h : Delimits rest) :
    (s.powerChars ++ rest).head? ≠ some '.' := by
  unfold Spelling.powerChars
  split
  · intro hpoint
    exact (h '.' hpoint).2.1 rfl
  · simp

theorem fraction_spelling (s : Spelling) {rest : List Char} (h : Delimits rest) :
    fraction (s.fractionChars ++ (s.powerChars ++ rest)) = (s.fraction, s.powerChars ++ rest) := by
  unfold Spelling.fractionChars
  by_cases hnil : s.fraction = []
  · rw [if_pos hnil, hnil]
    exact fraction_of_head (head_powerChars_ne s h)
  · rw [if_neg hnil]
    exact fraction_of_ne_nil s.fraction_digits hnil (noDigit_powerChars s h.noDigit)

theorem exponent?_spelling (s : Spelling) {rest : List Char} (h : Delimits rest) :
    exponent? (s.powerChars ++ rest) = s.power.map fun _ => (s.shift, rest) := by
  have hdigits := s.power_digits
  unfold Spelling.powerChars Spelling.shift
  cases hp : s.power with
  | none => exact exponent?_of_delimits h
  | some p =>
    obtain ⟨negative, digits⟩ := p
    obtain ⟨hne, hd⟩ := hdigits _ hp
    exact exponent?_of_digits negative hd hne h.noDigit

/-- A sign in front of the text of a number. -/
def signed (negative : Bool) (cs : List Char) : List Char :=
  if negative then '-' :: cs else cs

theorem head_of_digits {digits rest : List Char} (hd : ∀ c ∈ digits, isAsciiDigit c)
    (hne : digits ≠ []) : (digits ++ rest).head? ≠ some '-' := by
  rw [List.head?_append_of_ne_nil _ hne]
  intro h
  have hminus := hd '-' (List.mem_of_mem_head? h)
  exact absurd hminus (by decide)

/-- The reader's view of a number: whether there is a sign, and what follows it. -/
theorem signed_split (negative : Bool) {cs : List Char} (h : cs.head? ≠ some '-') :
    ((signed negative cs).head? == some '-') = negative ∧
      (if negative then (signed negative cs).drop 1 else signed negative cs) = cs := by
  cases negative with
  | true => exact ⟨rfl, rfl⟩
  | false =>
    constructor
    · simpa [signed] using h
    · rfl

theorem readNumber_spelling (s : Spelling) (negative : Bool) {rest : List Char}
    (h : Delimits rest) :
    readNumber (signed negative (s.chars ++ rest)) =
      .ok (.number (if negative then -s.decimal.toFloat else s.decimal.toFloat), rest) := by
  have hchars : s.chars ++ rest = s.whole ++ (s.fractionChars ++ (s.powerChars ++ rest)) := by
    simp [Spelling.chars]
  have hminus : (s.chars ++ rest).head? ≠ some '-' := by
    rw [hchars]
    exact head_of_digits s.whole_digits s.whole_ne_nil
  obtain ⟨hsign, hunsigned⟩ := signed_split negative hminus
  have hwhole := integral_eq s.whole_digits s.whole_ne_nil s.whole_head
    (noDigit_fractionChars s h.noDigit)
  unfold readNumber
  simp only [hsign, hunsigned]
  rw [hchars]
  simp only [hwhole, List.drop_left, fraction_spelling s h, exponent?_spelling s h]
  rw [if_neg (by simp [s.whole_ne_nil])]
  -- A number without fraction and exponent would be whole, and the others denote a double.
  split
  · next hfraction hpower =>
    rcases s.not_whole with hne | hne
    · exact absurd hfraction hne
    · exact absurd (Option.map_eq_none_iff.mp hpower) hne
  · cases hp : s.power with
    | none => simp [Spelling.decimal, Spelling.shift, Spelling.powerChars, hp]
    | some p => simp [Spelling.decimal]

theorem toList_toString_int (n : ℤ) :
    (toString n).toList = signed (decide (n < 0)) (Nat.toDigits 10 n.natAbs) := by
  rw [Int.toString_eq_repr, Int.repr_eq_if]
  by_cases hneg : n < 0
  · have habs : (-n).toNat = n.natAbs := by omega
    rw [if_neg (by omega), habs]
    simp [signed, hneg]
  · have habs : n.toNat = n.natAbs := by omega
    rw [if_pos (by omega), habs]
    simp [signed, hneg]

theorem signed_append (negative : Bool) (cs rest : List Char) :
    signed negative cs ++ rest = signed negative (cs ++ rest) := by
  cases negative with
  | true => rfl
  | false => rfl

theorem readNumber_integer {n : ℤ} (hn : (Nat.toDigits 10 n.natAbs).length ≤ Number.maxDigits)
    {rest : List Char} (h : Delimits rest) :
    readNumber ((toString n).toList ++ rest) = .ok (.integer n, rest) := by
  have hdigits : ∀ c ∈ Nat.toDigits 10 n.natAbs, isAsciiDigit c :=
    fun c hc => isAsciiDigit_of_mem_toDigits hc
  have hminus : (Nat.toDigits 10 n.natAbs ++ rest).head? ≠ some '-' :=
    head_of_digits hdigits Nat.toDigits_ne_nil
  obtain ⟨hsign, hunsigned⟩ := signed_split (decide (n < 0)) hminus
  have hwhole := integral_eq hdigits Nat.toDigits_ne_nil Number.digits_head h.noDigit
  have hpoint : rest.head? ≠ some '.' := fun hc => (h '.' hc).2.1 rfl
  rw [toList_toString_int, signed_append]
  unfold readNumber
  simp only [hsign, hunsigned]
  simp only [hwhole, List.drop_left, fraction_of_head hpoint, exponent?_of_delimits h]
  rw [if_neg (by simp), if_neg (by omega), Number.ofDigits_toDigits]
  by_cases hneg : n < 0
  · have habs : -(n.natAbs : ℤ) = n := by omega
    simp only [hneg, decide_true, if_true, habs]
  · have habs : (n.natAbs : ℤ) = n := by omega
    simp only [hneg, decide_false, Bool.false_eq_true, if_false, habs]

/-- No word of the format starts as a number does. -/
theorem readScalar_of_digits (negative : Bool) {digits rest : List Char}
    (hd : ∀ c ∈ digits, isAsciiDigit c) (hne : digits ≠ []) :
    readScalar (signed negative (digits ++ rest)) = readNumber (signed negative (digits ++ rest)) := by
  have hwords : ∀ w ∈ words, ∃ c d cs, w.1 = c :: d :: cs ∧ ¬ isAsciiDigit c ∧
      (c = '-' → ¬ isAsciiDigit d) := by
    simp [words, isAsciiDigit]
  obtain ⟨d, ds, rfl⟩ := List.exists_cons_of_ne_nil hne
  have hfirst : isAsciiDigit d := hd d List.mem_cons_self
  have hnone : (words.find? fun w =>
      w.1.isPrefixOf (signed negative (d :: ds ++ rest))) = none := by
    rw [List.find?_eq_none]
    intro w hw hbegins
    obtain ⟨c, c', cs, hword, hc, hc'⟩ := hwords w hw
    rw [List.isPrefixOf_iff_prefix, hword] at hbegins
    cases negative with
    | false =>
      obtain ⟨rfl, -⟩ := List.cons_prefix_cons.mp hbegins
      exact hc hfirst
    | true =>
      obtain ⟨rfl, hmore⟩ := List.cons_prefix_cons.mp hbegins
      obtain ⟨rfl, -⟩ := List.cons_prefix_cons.mp hmore
      exact hc' rfl hfirst
  unfold readScalar
  rw [hnone]

theorem readScalar_infinity (rest : List Char) :
    readScalar ("Infinity".toList ++ rest) = .ok (.number (1 / 0), rest) := rfl

theorem readScalar_neg_infinity (rest : List Char) :
    readScalar ("-Infinity".toList ++ rest) = .ok (.number (-1 / 0), rest) := rfl

/-- The text of a double: its sign and either the word for infinity or digits. -/
theorem toList_text (layout : Number.Layout) {x : Float}
    (hx : Number.magnitude x ≤ Number.infinityMagnitude) :
    (layout.text x).toList = signed (Number.isNegative x)
      (if Number.magnitude x = Number.infinityMagnitude then layout.infinity.toList
        else (layout.decimal (Number.Decimal.shortest (Number.magnitude x))).toList) := by
  unfold Number.Layout.text
  simp only [if_neg (Nat.not_lt.mpr hx)]
  rw [← apply_ite String.toList]
  cases Number.isNegative x with
  | true => exact String.toList_append
  | false => rfl

/-- A double that is a number is read back from its text. -/
theorem readScalar_number {x : Float} (hx : Number.magnitude x ≤ Number.infinityMagnitude)
    {rest : List Char} (h : Delimits rest) :
    readScalar ((numberLayout.text x).toList ++ rest) = .ok (.number x, rest) := by
  have hsplit := Number.eq_ofMagnitude hx
  rw [toList_text numberLayout hx]
  by_cases hinfinite : Number.magnitude x = Number.infinityMagnitude
  · rw [if_pos hinfinite]
    rw [hinfinite] at hsplit
    by_cases hsign : Number.isNegative x
    · rw [if_pos hsign, ← Number.neg_infinity_eq_ofMagnitude] at hsplit
      rw [hsign, hsplit]
      exact readScalar_neg_infinity rest
    · rw [if_neg hsign, ← Number.infinity_eq_ofMagnitude] at hsplit
      rw [Bool.not_eq_true] at hsign
      rw [hsign, hsplit]
      exact readScalar_infinity rest
  · rw [if_neg hinfinite]
    obtain ⟨s, hs, hmagnitude⟩ := numberLayout.exists_spelling_shortest
      (Nat.lt_of_le_of_ne hx hinfinite)
    have hvalue : s.decimal.toFloat = Number.ofMagnitude (Number.magnitude x) := by
      rw [Number.Decimal.toFloat, hmagnitude]
    rw [← hs, signed_append, Spelling.chars, List.append_assoc, List.append_assoc,
      readScalar_of_digits _ s.whole_digits s.whole_ne_nil, ← List.append_assoc,
      ← List.append_assoc, ← Spelling.chars, readNumber_spelling s _ h, hvalue, ← hsplit]

theorem readScalar_integer {n : ℤ} (hn : (Nat.toDigits 10 n.natAbs).length ≤ Number.maxDigits)
    {rest : List Char} (h : Delimits rest) :
    readScalar ((toString n).toList ++ rest) = .ok (.integer n, rest) := by
  rw [← readNumber_integer hn h, toList_toString_int, signed_append]
  exact readScalar_of_digits _ (fun c hc => isAsciiDigit_of_mem_toDigits hc) Nat.toDigits_ne_nil

theorem hexValues?_hex {n : ℕ} (hn : n < 32) :
    (Text.hex 4 n).length = 4 ∧ hexValues? (Text.hex 4 n) = some n := by
  have hall : ∀ n < 32, (Text.hex 4 n).length = 4 ∧ hexValues? (Text.hex 4 n) = some n := by
    decide +kernel
  exact hall n hn

theorem units_plain {c : Char} (hquote : c ≠ '"') (hslash : c ≠ '\\') (hc : ¬ c.toNat < 32)
    (tail : List Char) :
    units (c :: tail) = (units tail).map fun p => (c.toNat :: p.1, p.2) := by
  rw [units.eq_5 c tail hquote]
  · rw [if_neg (by simp [hslash, hc])]
    cases units tail <;> rfl
  · intro a b d e rest h
    exact absurd h hslash
  · intro d rest h
    exact absurd h hslash

/-- The reader takes an escaped character for the character. -/
theorem units_escapedChar (c : Char) (tail : List Char) :
    units (escapedChar c ++ tail) = (units tail).map fun p => (c.toNat :: p.1, p.2) := by
  unfold escapedChar
  split
  · cases h : units tail <;> simp [units, escape?, h]
  · cases h : units tail <;> simp [units, escape?, h]
  · cases h : units tail <;> simp [units, escape?, h]
  · cases h : units tail <;> simp [units, escape?, h]
  · cases h : units tail <;> simp [units, escape?, h]
  · cases h : units tail <;> simp [units, escape?, h]
  · cases h : units tail <;> simp [units, escape?, h]
  · next hquote hslash _ _ _ _ _ =>
    by_cases hc : c.toNat < 32
    · rw [if_pos hc]
      obtain ⟨hlength, hvalue⟩ := hexValues?_hex hc
      obtain ⟨a, b, d, e, hdigits⟩ := List.length_eq_four.mp hlength
      rw [hdigits] at hvalue ⊢
      cases h : units tail <;> simp [units, hvalue, h]
    · rw [if_neg hc]
      exact units_plain hquote hslash hc tail

theorem units_escaped (cs rest : List Char) :
    units (cs.flatMap escapedChar ++ '"' :: rest) = some (cs.map Char.toNat, rest) := by
  induction cs with
  | nil => simp [units]
  | cons c cs ih =>
    rw [List.flatMap_cons, List.append_assoc, units_escapedChar, ih]
    rfl

/-- No character is one of the halves. -/
theorem not_half (c : Char) : ¬ (0xD800 ≤ c.toNat ∧ c.toNat < 0xE000) := by
  have hvalid := c.valid
  unfold UInt32.isValidChar Nat.isValidChar at hvalid
  simp only [Char.toNat]
  omega

theorem pointOf_toNat (c : Char) : pointOf c.toNat = .char c := by
  rw [pointOf, dif_neg (not_half c), Char.ofNat_toNat]

theorem isHighHalf_toNat (c : Char) : isHighHalf c.toNat = false := by
  have hhalf := not_half c
  simp only [isHighHalf, Bool.and_eq_false_iff, decide_eq_false_iff_not]
  omega

theorem joinHalves_toNat (cs : List Char) : joinHalves (cs.map Char.toNat) = cs.map .char := by
  induction cs with
  | nil => rfl
  | cons c cs ih =>
    cases cs with
    | nil => exact congrArg ([·]) (pointOf_toNat c)
    | cons d ds =>
      rw [List.map_cons, List.map_cons, joinHalves, isHighHalf_toNat, Bool.false_and,
        if_neg Bool.false_ne_true, ← List.map_cons, ih, pointOf_toNat]
      rfl

theorem readString_escaped (s : String) (rest : List Char) :
    readString (s.toList.flatMap escapedChar ++ '"' :: rest) = .ok (s, rest) := by
  have hpoints : Text.ofPoints (s.toList.map Point.char) = s := Text.ofPoints_points s
  unfold readString
  rw [units_escaped]
  simp only [joinHalves_toNat, hpoints]

end LoxLang.Json
