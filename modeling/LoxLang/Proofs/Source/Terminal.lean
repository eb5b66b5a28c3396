import Mathlib.Data.List.TakeWhile
import LoxLang.Source.Segment

/-!
The regular terminals as sets of texts, and what has to stand at the front of a text: the longest
regular terminal there, or where none starts, a string without an end or one stray character.
`classify` finds it, and there is only one.
-/
namespace LoxLang.Source

open Text

/-- The operators and their spellings. -/
def operatorTexts : List (List Char × TokenKind) :=
  [(['('], .leftParen), ([')'], .rightParen), (['\x7b'], .leftBrace), (['\x7d'], .rightBrace),
   ([','], .comma), (['.'], .dot), (['-'], .minus), (['+'], .plus), ([';'], .semicolon),
   (['/'], .slash), (['*'], .star), (['!'], .bang), (['!', '='], .bangEqual), (['='], .equal),
   (['=', '='], .equalEqual), (['>'], .greater), (['>', '='], .greaterEqual), (['<'], .less),
   (['<', '='], .lessEqual)]

/-- The texts of the regular terminals. -/
inductive Regular : SegmentKind → List Char → Prop where
  | word {c : Char} {cs : List Char} (hc : startsWord c) (hcs : ∀ d ∈ cs, continuesWord d) :
      Regular .word (c :: cs)
  | whole {c : Char} {cs : List Char} (hc : isAsciiDigit c) (hcs : ∀ d ∈ cs, isAsciiDigit d) :
      Regular .number (c :: cs)
  | fraction {c d : Char} {cs ds : List Char} (hc : isAsciiDigit c)
      (hcs : ∀ d ∈ cs, isAsciiDigit d) (hd : isAsciiDigit d) (hds : ∀ d ∈ ds, isAsciiDigit d) :
      Regular .number (c :: (cs ++ '.' :: d :: ds))
  | string {cs : List Char} (h : '"' ∉ cs) : Regular .string ('"' :: (cs ++ ['"']))
  | comment {cs : List Char} (h : '\n' ∉ cs) : Regular .comment ('/' :: '/' :: cs)
  | blank {c : Char} {cs : List Char} (hc : isBlank c) (hcs : ∀ d ∈ cs, isBlank d) :
      Regular .blank (c :: cs)
  | operator {kind : TokenKind} {text : List Char} (h : (text, kind) ∈ operatorTexts) :
      Regular (.operator kind) text

/-- The segment is the longest regular terminal at the front of the text. -/
structure Longest (s : Segment) (cs : List Char) : Prop where
  regular : Regular s.kind s.text
  isPrefix : s.text <+: cs
  longest : ∀ k t, Regular k t → t <+: cs → t.length ≤ s.text.length

/-- No regular terminal stands at the front of the text. -/
def NoRegular (cs : List Char) : Prop :=
  ∀ k t, Regular k t → ¬ t <+: cs

/-- The segment is what has to be cut off at the front of the text. -/
inductive Front : Segment → List Char → Prop where
  | longest {s : Segment} {cs : List Char} (h : Longest s cs) : Front s cs
  | unterminated {cs : List Char} (h : NoRegular ('"' :: cs)) :
      Front ⟨.unterminated, '"' :: cs⟩ ('"' :: cs)
  | stray {c : Char} {cs : List Char} (h : NoRegular (c :: cs)) (hc : c ≠ '"') :
      Front ⟨.stray, [c]⟩ (c :: cs)

theorem startsWord_iff (c : Char) :
    startsWord c ↔ (65 ≤ c.toNat ∧ c.toNat ≤ 90) ∨ (97 ≤ c.toNat ∧ c.toNat ≤ 122) ∨ c.toNat = 95 := by
  have h95 : c = '_' ↔ c.toNat = 95 := by
    rw [← Char.toNat_inj]
    rfl
  simp only [startsWord, Bool.or_eq_true, Bool.and_eq_true, decide_eq_true_eq, beq_iff_eq, h95,
    Char.le_def, UInt32.le_iff_toNat_le, or_assoc]
  rfl

theorem isAsciiDigit_iff (c : Char) : isAsciiDigit c ↔ 48 ≤ c.toNat ∧ c.toNat ≤ 57 := by
  simp only [isAsciiDigit, Bool.and_eq_true, decide_eq_true_eq, Char.le_def,
    UInt32.le_iff_toNat_le]
  rfl

theorem isBlank_iff (c : Char) :
    isBlank c ↔ ∃ r ∈ blankRanges, r.1 ≤ c.toNat ∧ c.toNat ≤ r.2 := by
  simp [isBlank, inRanges]

theorem not_startsWord_of_isAsciiDigit {c : Char} (h : isAsciiDigit c) : ¬ startsWord c := by
  rw [isAsciiDigit_iff] at h
  rw [startsWord_iff]
  omega

theorem not_startsWord_of_isBlank {c : Char} (h : isBlank c) : ¬ startsWord c := by
  rw [isBlank_iff] at h
  rw [startsWord_iff]
  simp only [blankRanges, List.mem_cons, List.not_mem_nil, or_false, exists_eq_or_imp,
    exists_eq_left] at h
  omega

theorem not_isAsciiDigit_of_isBlank {c : Char} (h : isBlank c) : ¬ isAsciiDigit c := by
  rw [isBlank_iff] at h
  rw [isAsciiDigit_iff]
  simp only [blankRanges, List.mem_cons, List.not_mem_nil, or_false, exists_eq_or_imp,
    exists_eq_left] at h
  omega

/-- No operator starts like a word, a number, a run of blanks or a string. -/
theorem operator_first {kind : TokenKind} {c : Char} {cs : List Char}
    (h : (c :: cs, kind) ∈ operatorTexts) :
    ¬ startsWord c ∧ ¬ isAsciiDigit c ∧ ¬ isBlank c ∧ c ≠ '"' := by
  have hall : ∀ o ∈ operatorTexts, ¬ startsWord (o.1.headD ' ') ∧ ¬ isAsciiDigit (o.1.headD ' ') ∧
      ¬ isBlank (o.1.headD ' ') ∧ o.1.headD ' ' ≠ '"' := by decide
  exact hall _ h

/-- An operator is the only one with its spelling, and none is spelt like a comment. -/
theorem operator_unique {kind kind' : TokenKind} {cs : List Char}
    (h : (cs, kind) ∈ operatorTexts) (h' : (cs, kind') ∈ operatorTexts) : kind = kind' := by
  have hall : ∀ o ∈ operatorTexts, ∀ o' ∈ operatorTexts, o.1 = o'.1 → o.2 = o'.2 := by decide
  exact hall _ h _ h' rfl

theorem operator_not_comment {kind : TokenKind} {cs : List Char}
    (h : ('/' :: cs, kind) ∈ operatorTexts) : cs.head? ≠ some '/' := by
  have hall : ∀ o ∈ operatorTexts, o.1.head? = some '/' → o.1.tail.head? ≠ some '/' := by decide
  exact hall _ h rfl

namespace Regular

variable {k : SegmentKind} {c : Char} {cs : List Char}

theorem ne_nil (h : Regular k cs) : cs ≠ [] := by
  cases h with
  | operator h =>
    rintro rfl
    simp [operatorTexts] at h
  | _ => simp

theorem kind_of_startsWord (h : Regular k (c :: cs)) (hc : startsWord c) : k = .word := by
  cases h with
  | word => rfl
  | whole hd => exact absurd hc (not_startsWord_of_isAsciiDigit hd)
  | fraction hd => exact absurd hc (not_startsWord_of_isAsciiDigit hd)
  | string => exact absurd hc (by decide)
  | comment => exact absurd hc (by decide)
  | blank hb => exact absurd hc (not_startsWord_of_isBlank hb)
  | operator ho => exact absurd hc (operator_first ho).1

theorem kind_of_isAsciiDigit (h : Regular k (c :: cs)) (hc : isAsciiDigit c) : k = .number := by
  cases h with
  | word hw => exact absurd hw (not_startsWord_of_isAsciiDigit hc)
  | whole => rfl
  | fraction => rfl
  | string => exact absurd hc (by decide)
  | comment => exact absurd hc (by decide)
  | blank hb => exact absurd hc (not_isAsciiDigit_of_isBlank hb)
  | operator ho => exact absurd hc (operator_first ho).2.1

theorem kind_of_isBlank (h : Regular k (c :: cs)) (hc : isBlank c) : k = .blank := by
  cases h with
  | word hw => exact absurd hw (not_startsWord_of_isBlank hc)
  | whole hd => exact absurd hd (not_isAsciiDigit_of_isBlank hc)
  | fraction hd => exact absurd hd (not_isAsciiDigit_of_isBlank hc)
  | string => exact absurd hc (by decide)
  | comment => exact absurd hc (by decide)
  | blank => rfl
  | operator ho => exact absurd hc (operator_first ho).2.2.1

theorem kind_of_quote (h : Regular k ('"' :: cs)) : k = .string := by
  cases h with
  | word hw => exact absurd hw (by decide)
  | whole hd => exact absurd hd (by decide)
  | fraction hd => exact absurd hd (by decide)
  | string => rfl
  | blank hb => exact absurd hb (by decide)
  | operator ho => exact absurd rfl (operator_first ho).2.2.2

theorem kind_of_slashes (h : Regular k ('/' :: cs)) (hcs : cs.head? = some '/') : k = .comment := by
  cases h with
  | word hw => exact absurd hw (by decide)
  | whole hd => exact absurd hd (by decide)
  | fraction hd => exact absurd hd (by decide)
  | comment => rfl
  | blank hb => exact absurd hb (by decide)
  | operator ho => exact absurd hcs (operator_not_comment ho)

/-- A text belongs to one regular terminal at most. -/
theorem kind_unique {k' : SegmentKind} (h : Regular k cs) (h' : Regular k' cs) : k = k' := by
  cases h with
  | word hc => exact (h'.kind_of_startsWord hc).symm
  | whole hc => exact (h'.kind_of_isAsciiDigit hc).symm
  | fraction hc => exact (h'.kind_of_isAsciiDigit hc).symm
  | string => exact h'.kind_of_quote.symm
  | comment => exact (h'.kind_of_slashes rfl).symm
  | blank hc => exact (h'.kind_of_isBlank hc).symm
  | operator ho =>
    cases h' with
    | word hc => exact absurd hc (operator_first ho).1
    | whole hc => exact absurd hc (operator_first ho).2.1
    | fraction hc => exact absurd hc (operator_first ho).2.1
    | string => exact absurd rfl (operator_first ho).2.2.2
    | comment => exact absurd rfl (operator_not_comment ho)
    | blank hc => exact absurd hc (operator_first ho).2.2.1
    | operator ho' => rw [operator_unique ho ho']

end Regular

/-- What has to be cut off at the front of a text is determined by the text. -/
theorem Front.unique {s s' : Segment} {cs : List Char} (h : Front s cs) (h' : Front s' cs) :
    s = s' := by
  cases h with
  | longest h =>
    cases h' with
    | longest h' =>
      have hlen : s.text.length = s'.text.length := by
        apply Nat.le_antisymm
        · exact h'.longest _ _ h.regular h.isPrefix
        · exact h.longest _ _ h'.regular h'.isPrefix
      have htext : s.text = s'.text := (List.prefix_of_prefix_length_le h.isPrefix h'.isPrefix
        (Nat.le_of_eq hlen)).eq_of_length hlen
      have hkind : s.kind = s'.kind := h.regular.kind_unique (htext ▸ h'.regular)
      obtain ⟨kind, text⟩ := s
      cases hkind
      cases htext
      rfl
    | unterminated hn => exact absurd h.isPrefix (hn _ _ h.regular)
    | stray hn => exact absurd h.isPrefix (hn _ _ h.regular)
  | unterminated hn =>
    cases h' with
    | longest h' => exact absurd h'.isPrefix (hn _ _ h'.regular)
    | unterminated => rfl
    | stray _ hc => exact absurd rfl hc
  | stray hn hc =>
    cases h' with
    | longest h' => exact absurd h'.isPrefix (hn _ _ h'.regular)
    | unterminated => exact absurd rfl hc
    | stray => rfl

/-- The spellings of the operators, by their first characters. -/
theorem mem_operatorTexts {c : Char} {t : List Char} {kind : TokenKind} :
    (c :: t, kind) ∈ operatorTexts ↔
      (t = [] ∧ singleOperator? c = some kind) ∨ (t = ['='] ∧ doubleOperator? c = some kind) := by
  constructor
  · intro h
    have hall : ∀ o ∈ operatorTexts,
        (o.1.tail = [] ∧ singleOperator? (o.1.headD ' ') = some o.2) ∨
          (o.1.tail = ['='] ∧ doubleOperator? (o.1.headD ' ') = some o.2) := by decide
    exact hall _ h
  · rintro (⟨rfl, h⟩ | ⟨rfl, h⟩)
    · unfold singleOperator? at h
      split at h <;> cases h <;> decide
    · unfold doubleOperator? at h
      split at h <;> cases h <;> decide

theorem take_length_takeWhile (p : Char → Bool) (cs : List Char) :
    cs.take (cs.takeWhile p).length = cs.takeWhile p :=
  (List.prefix_iff_eq_take.mp (List.takeWhile_prefix p)).symm

theorem drop_length_takeWhile (p : Char → Bool) (cs : List Char) :
    cs.drop (cs.takeWhile p).length = cs.dropWhile p := by
  induction cs with
  | nil => rfl
  | cons c cs ih =>
    by_cases hc : p c
    · simp [hc, ih]
    · simp [hc]

theorem length_le_takeWhile {p : Char → Bool} {t cs : List Char} (h : t <+: cs)
    (ht : ∀ d ∈ t, p d) : t.length ≤ (cs.takeWhile p).length := by
  obtain ⟨rest, rfl⟩ := h
  rw [List.takeWhile_append_of_pos ht, List.length_append]
  omega

/-- A regular terminal in front of `c :: cs` starts with `c` and goes on with a beginning of `cs`. -/
theorem Regular.cons_of_beginning {k : SegmentKind} {t cs : List Char} {c : Char} (h : Regular k t)
    (ht : t <+: c :: cs) : ∃ t', t = c :: t' ∧ t' <+: cs := by
  cases t with
  | nil => exact absurd rfl h.ne_nil
  | cons d t' =>
    obtain ⟨rfl, ht'⟩ := List.cons_prefix_cons.mp ht
    exact ⟨t', rfl, ht'⟩

theorem longest_cons {kind : SegmentKind} {c : Char} {cs : List Char} {n : Nat}
    (hr : Regular kind (c :: cs.take n))
    (hlen : ∀ k t, Regular k (c :: t) → t <+: cs → t.length ≤ (cs.take n).length) :
    Longest ⟨kind, c :: cs.take n⟩ (c :: cs) := by
  refine ⟨hr, List.cons_prefix_cons.mpr ⟨rfl, List.take_prefix n cs⟩, ?_⟩
  intro k t hk ht
  obtain ⟨t', rfl, ht'⟩ := hk.cons_of_beginning ht
  exact Nat.succ_le_succ (hlen k t' hk ht')

/-- A terminal that goes on as long as the characters are of one class. -/
theorem longest_run {kind : SegmentKind} {p : Char → Bool} {c : Char} {cs : List Char}
    (hr : Regular kind (c :: cs.takeWhile p))
    (hall : ∀ k t, Regular k (c :: t) → t <+: cs → ∀ d ∈ t, p d) :
    Longest ⟨kind, c :: cs.take (cs.takeWhile p).length⟩ (c :: cs) := by
  rw [← take_length_takeWhile] at hr
  apply longest_cons hr
  intro k t hk ht
  rw [take_length_takeWhile]
  exact length_le_takeWhile ht (hall k t hk ht)

theorem longest_word {c : Char} (hc : startsWord c) (cs : List Char) :
    Longest ⟨.word, c :: cs.take (cs.takeWhile continuesWord).length⟩ (c :: cs) := by
  apply longest_run
  · exact .word hc fun d hd => List.mem_takeWhile_imp hd
  · intro k t hk _
    cases hk.kind_of_startsWord hc
    cases hk with
    | word _ ht => exact ht

theorem longest_blank {c : Char} (hc : isBlank c) (cs : List Char) :
    Longest ⟨.blank, c :: cs.take (cs.takeWhile isBlank).length⟩ (c :: cs) := by
  apply longest_run
  · exact .blank hc fun d hd => List.mem_takeWhile_imp hd
  · intro k t hk _
    cases hk.kind_of_isBlank hc
    cases hk with
    | blank _ ht => exact ht

theorem longest_comment {cs : List Char} (hcs : cs.head? = some '/') :
    Longest ⟨.comment, '/' :: cs.take (cs.takeWhile (· != '\n')).length⟩ ('/' :: cs) := by
  obtain ⟨cs, rfl⟩ := List.head?_eq_some_iff.mp hcs
  apply longest_run
  · rw [List.takeWhile_cons_of_pos (by decide)]
    exact .comment fun h => by simpa using List.mem_takeWhile_imp h
  · intro k t hk ht
    cases t with
    | nil => simp
    | cons d t =>
      obtain ⟨rfl, -⟩ := List.cons_prefix_cons.mp ht
      cases hk.kind_of_slashes rfl
      cases hk with
      | comment hn =>
        intro d hd
        rw [bne_iff_ne]
        rintro rfl
        simp [hn] at hd

theorem not_isAsciiDigit_point : ¬ isAsciiDigit '.' := by
  decide

/-- Digits in front of a point are all that a run of digits takes. -/
theorem takeWhile_digits_point {ds rest : List Char} (h : ∀ d ∈ ds, isAsciiDigit d) :
    (ds ++ '.' :: rest).takeWhile isAsciiDigit = ds := by
  rw [List.takeWhile_append_of_pos h, List.takeWhile_cons_of_neg not_isAsciiDigit_point,
    List.append_nil]

/-- A fraction is a point and all digits after it, of which there is at least one. -/
theorem fractionLength_cases (cs : List Char) :
    fractionLength cs = 0 ∨ ∃ d ds rest, cs = '.' :: d :: (ds ++ rest) ∧ isAsciiDigit d ∧
      (∀ x ∈ ds, isAsciiDigit x) ∧ fractionLength cs = ds.length + 2 := by
  unfold fractionLength
  split
  · next rest =>
    have hall : ∀ x ∈ rest.takeWhile isAsciiDigit, isAsciiDigit x :=
      fun x hx => List.mem_takeWhile_imp hx
    have hcut : rest.takeWhile isAsciiDigit ++ rest.dropWhile isAsciiDigit = rest :=
      List.takeWhile_append_dropWhile
    cases htake : rest.takeWhile isAsciiDigit with
    | nil => exact .inl rfl
    | cons d ds =>
      rw [htake] at hall hcut
      refine .inr ⟨d, ds, rest.dropWhile isAsciiDigit, congrArg _ hcut.symm, ?_, ?_, rfl⟩
      · exact hall d (List.mem_cons_self ..)
      · exact fun x hx => hall x (List.mem_cons_of_mem d hx)
  · exact .inl rfl

theorem le_fractionLength {d : Char} {ds cs : List Char} (hd : isAsciiDigit d)
    (hds : ∀ x ∈ ds, isAsciiDigit x) (h : '.' :: d :: ds <+: cs) :
    ds.length + 2 ≤ fractionLength cs := by
  obtain ⟨rest, rfl⟩ := h
  have hlen := length_le_takeWhile (List.prefix_append (d :: ds) rest)
    (List.forall_mem_cons.mpr ⟨hd, hds⟩)
  simp only [List.cons_append, fractionLength] at hlen ⊢
  split
  · next hzero => simp [hzero] at hlen
  · next n hsucc =>
    simp only [hsucc, List.length_cons] at hlen
    omega

theorem regular_number {c : Char} (hc : isAsciiDigit c) (cs : List Char) :
    Regular .number (c :: cs.take ((cs.takeWhile isAsciiDigit).length +
      fractionLength (cs.drop (cs.takeWhile isAsciiDigit).length))) := by
  have hdigits : ∀ d ∈ cs.takeWhile isAsciiDigit, isAsciiDigit d :=
    fun d hd => List.mem_takeWhile_imp hd
  rw [List.take_add, take_length_takeWhile]
  obtain hzero | ⟨d, ds, rest, hrest, hd, hds, hlen⟩ :=
    fractionLength_cases (cs.drop (cs.takeWhile isAsciiDigit).length)
  · rw [hzero, List.take_zero, List.append_nil]
    exact .whole hc hdigits
  · rw [hlen, hrest, List.take_succ_cons, List.take_succ_cons, List.take_left]
    exact .fraction hc hdigits hd hds

theorem longest_number {c : Char} (hc : isAsciiDigit c) (cs : List Char) :
    Longest ⟨.number, c :: cs.take ((cs.takeWhile isAsciiDigit).length +
      fractionLength (cs.drop (cs.takeWhile isAsciiDigit).length))⟩ (c :: cs) := by
  apply longest_cons (regular_number hc cs)
  intro k t hk ht
  rw [List.length_take]
  refine Nat.le_min.mpr ⟨?_, ht.length_le⟩
  cases hk.kind_of_isAsciiDigit hc
  cases hk with
  | whole _ hall =>
    have hlen := length_le_takeWhile ht hall
    omega
  | @fraction _ d a ds _ ha hd hds =>
    -- the digits in front of the point are the whole run, so the fraction is the one that was found
    obtain ⟨rest, rfl⟩ := ht
    rw [List.append_assoc, List.cons_append, takeWhile_digits_point ha, List.drop_left]
    have hlen := le_fractionLength hd hds (List.prefix_append ('.' :: d :: ds) rest)
    simp only [List.cons_append, List.length_append, List.length_cons] at hlen ⊢
    omega

theorem longest_string {cs : List Char} (h : (cs.takeWhile (· != '"')).length < cs.length) :
    Longest ⟨.string, '"' :: cs.take ((cs.takeWhile (· != '"')).length + 1)⟩ ('"' :: cs) := by
  have hbody : '"' ∉ cs.takeWhile (· != '"') := fun hq => by simpa using List.mem_takeWhile_imp hq
  have htake : cs.take ((cs.takeWhile (· != '"')).length + 1) = cs.takeWhile (· != '"') ++ ['"'] := by
    have hcut : cs.takeWhile (· != '"') ++ cs.dropWhile (· != '"') = cs :=
      List.takeWhile_append_dropWhile
    cases hdrop : cs.dropWhile (· != '"') with
    | nil =>
      rw [hdrop, List.append_nil] at hcut
      rw [hcut] at h
      omega
    | cons q rest =>
      have hq : q = '"' := by
        have hhead := List.head?_dropWhile_not (· != '"') cs
        rw [hdrop] at hhead
        simpa using hhead
      rw [List.take_add, take_length_takeWhile, drop_length_takeWhile, hdrop, hq]
      rfl
  apply longest_cons
  · rw [htake]
    exact .string hbody
  · intro k t hk ht
    cases hk.kind_of_quote
    cases hk with
    | @string body hb =>
      have hlen : body.length ≤ (cs.takeWhile (· != '"')).length := by
        apply length_le_takeWhile ((List.prefix_append body ['"']).trans ht)
        intro d hd
        rw [bne_iff_ne]
        rintro rfl
        exact hb hd
      rw [htake, List.length_append, List.length_append]
      exact Nat.add_le_add_right hlen 1

theorem noRegular_unterminated {cs : List Char} (h : '"' ∉ cs) : NoRegular ('"' :: cs) := by
  intro k t hk ht
  obtain ⟨t', rfl, ht'⟩ := hk.cons_of_beginning ht
  cases hk.kind_of_quote
  cases hk with
  | string => exact h (ht'.subset (by simp))

/-- What starts with none of the characters of the other terminals is an operator. -/
theorem Regular.operator_of_first {k : SegmentKind} {c : Char} {t : List Char}
    (h : Regular k (c :: t)) (hw : ¬ startsWord c) (hd : ¬ isAsciiDigit c) (hb : ¬ isBlank c)
    (hq : c ≠ '"') (hs : ¬ (c = '/' ∧ t.head? = some '/')) :
    ∃ kind, (c :: t, kind) ∈ operatorTexts := by
  cases h with
  | word hc => exact absurd hc hw
  | whole hc => exact absurd hc hd
  | fraction hc => exact absurd hc hd
  | string => exact absurd rfl hq
  | comment => exact absurd ⟨rfl, rfl⟩ hs
  | blank hc => exact absurd hc hb
  | operator ho => exact ⟨_, ho⟩

theorem head?_of_beginning {t cs : List Char} {d : Char} (h : t <+: cs) (ht : t.head? = some d) :
    cs.head? = some d := by
  obtain ⟨t', rfl⟩ := List.head?_eq_some_iff.mp ht
  obtain ⟨rest, rfl⟩ := h
  rfl

/-- The kind and length that `classify` finds are those of what has to be cut off. -/
theorem front_classify (c : Char) (cs : List Char) :
    Front ⟨(classify c cs).1, c :: cs.take (classify c cs).2⟩ (c :: cs) := by
  unfold classify
  by_cases hw : startsWord c
  · rw [if_pos hw]
    exact .longest (longest_word hw cs)
  rw [if_neg hw]
  by_cases hd : isAsciiDigit c
  · rw [if_pos hd]
    exact .longest (longest_number hd cs)
  rw [if_neg hd]
  by_cases hb : isBlank c
  · rw [if_pos hb]
    exact .longest (longest_blank hb cs)
  rw [if_neg hb]
  by_cases hq : c = '"'
  · subst hq
    rw [if_pos rfl]
    dsimp only
    split
    · next hlt => exact .longest (longest_string hlt)
    · next hge =>
      have hall : cs.takeWhile (· != '"') = cs := (List.takeWhile_prefix _).eq_of_length_le (by omega)
      have hnone : '"' ∉ cs := fun h => by
        rw [← hall] at h
        simpa using List.mem_takeWhile_imp h
      rw [take_length_takeWhile, hall]
      exact .unterminated (noRegular_unterminated hnone)
  rw [if_neg hq]
  by_cases hs : c = '/' ∧ cs.head? = some '/'
  · obtain ⟨rfl, hcs⟩ := hs
    rw [if_pos (by simp [hcs])]
    exact .longest (longest_comment hcs)
  rw [if_neg (by simpa using hs)]
  have hoperator : ∀ k t, Regular k (c :: t) → t <+: cs →
      ∃ kind, (c :: t, kind) ∈ operatorTexts := fun k t hk ht =>
    hk.operator_of_first hw hd hb hq fun h => hs ⟨h.1, head?_of_beginning ht h.2⟩
  split
  · next k hdouble hhead =>
    obtain ⟨rest, rfl⟩ := List.head?_eq_some_iff.mp hhead
    refine .longest (longest_cons (.operator (mem_operatorTexts.mpr (.inr ⟨rfl, hdouble⟩))) ?_)
    intro k t hk ht
    obtain ⟨kind, ho⟩ := hoperator k t hk ht
    obtain ⟨rfl, -⟩ | ⟨rfl, -⟩ := mem_operatorTexts.mp ho <;> simp
  · next k hsingle hno =>
    refine .longest (longest_cons (.operator (mem_operatorTexts.mpr (.inl ⟨rfl, hsingle⟩))) ?_)
    intro k t hk ht
    obtain ⟨kind, ho⟩ := hoperator k t hk ht
    obtain ⟨rfl, -⟩ | ⟨rfl, hdouble⟩ := mem_operatorTexts.mp ho
    · simp
    · exact absurd (head?_of_beginning ht rfl) (hno _ hdouble)
  · next hnone hno =>
    refine .stray ?_ hq
    intro k t hk ht
    obtain ⟨t', rfl, ht'⟩ := hk.cons_of_beginning ht
    obtain ⟨kind, ho⟩ := hoperator k t' hk ht'
    have hall : ∀ o ∈ operatorTexts, singleOperator? (o.1.headD ' ') ≠ none := by decide
    exact hall _ ho hnone

end LoxLang.Source
