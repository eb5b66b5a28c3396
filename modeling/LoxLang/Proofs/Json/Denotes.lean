import Mathlib.Tactic.SplitIfs
import LoxLang.Proofs.Json.Scalar

/-! Texts that denote a value: the reader takes them for it in front of any other text. -/
namespace LoxLang.Json

open Text (isAsciiDigit)

def isBlank (c : Char) : Bool :=
  c == ' ' || c == '\t' || c == '\n' || c == '\r'

theorem skipBlanks_blanks {blanks rest : List Char} (h : ∀ c ∈ blanks, isBlank c)
    (hrest : ∀ c ∈ rest.head?, isBlank c = false) : skipBlanks (blanks ++ rest) = rest := by
  change (blanks ++ rest).dropWhile isBlank = rest
  rw [List.dropWhile_append_of_pos h]
  cases rest with
  | nil => rfl
  | cons c cs => simp [hrest c rfl]

/-- The first character is neither blank nor a closing bracket. -/
def Begins (text : List Char) : Prop :=
  ∃ c ∈ text.head?, isBlank c = false ∧ c ≠ ']' ∧ c ≠ '\x7d'

theorem Begins.append {text : List Char} (h : Begins text) (rest : List Char) :
    Begins (text ++ rest) := by
  obtain ⟨c, hc, hrest⟩ := h
  obtain ⟨cs, rfl⟩ := List.head?_eq_some_iff.mp hc
  exact ⟨c, rfl, hrest⟩

theorem Begins.skipBlanks {text blanks : List Char} (h : Begins text)
    (hblanks : ∀ c ∈ blanks, isBlank c) : skipBlanks (blanks ++ text) = text := by
  apply skipBlanks_blanks hblanks
  obtain ⟨c, hc, hblank, -⟩ := h
  intro d hd
  obtain rfl := Option.mem_unique hc hd
  exact hblank

theorem Begins.intercalate {t : List Char} (h : Begins t) (sep : List Char)
    (ts : List (List Char)) : Begins (sep.intercalate (t :: ts)) := by
  cases ts with
  | nil =>
    rw [List.intercalate_singleton]
    exact h
  | cons u us =>
    rw [List.intercalate_cons_cons, List.append_assoc]
    exact h.append _

/-- A text that is read as the value, whatever other text follows. -/
structure Denotes (text : List Char) (v : Value) : Prop where
  begins : Begins text
  reads : ∀ (fuel : ℕ) (rest : List Char), text.length ≤ fuel → Delimits rest →
    readValue fuel (text ++ rest) = .ok (v, rest)
  /-- The text is not changed when its lines are taken in. -/
  noReturn : '\r' ∉ text

theorem readValue_scalar {c : Char} (h : c ≠ '"' ∧ c ≠ '[' ∧ c ≠ '\x7b') (fuel : ℕ)
    (cs : List Char) : readValue (fuel + 1) (c :: cs) = readScalar (c :: cs) := by
  rw [readValue.eq_5]
  · intro rest hcs
    exact h.1 (List.cons.inj hcs).1
  · intro rest hcs
    exact h.2.1 (List.cons.inj hcs).1
  · intro rest hcs
    exact h.2.2 (List.cons.inj hcs).1

/-- The characters of words and numbers. -/
def isScalarChar (c : Char) : Bool :=
  c.isAlphanum || c == '.' || c == '-' || c == '+'

theorem isScalarChar_of_isAsciiDigit {c : Char} (h : isAsciiDigit c) : isScalarChar c := by
  have hdigit : c.isDigit := by simpa [Char.isDigit, isAsciiDigit, Char.le_def] using h
  simp [isScalarChar, Char.isAlphanum, hdigit]

theorem denotes_scalar {text : List Char} {v : Value} (hne : text ≠ [])
    (hchars : ∀ c ∈ text, isScalarChar c)
    (h : ∀ rest, Delimits rest → readScalar (text ++ rest) = .ok (v, rest)) : Denotes text v := by
  obtain ⟨c, cs, rfl⟩ := List.exists_cons_of_ne_nil hne
  have hother : ∀ d, isScalarChar d = false → c ≠ d := by
    intro d hd hcd
    have hc := hchars c List.mem_cons_self
    rw [hcd, hd] at hc
    exact absurd hc (by decide)
  constructor
  · refine ⟨c, rfl, ?_, hother _ rfl, hother _ rfl⟩
    simp [isBlank, hother ' ' rfl, hother '\t' rfl, hother '\n' rfl, hother '\r' rfl]
  · intro fuel rest hfuel hrest
    obtain ⟨fuel, rfl⟩ := Nat.exists_eq_succ_of_ne_zero (show fuel ≠ 0 by
      rw [List.length_cons] at hfuel
      omega)
    rw [List.cons_append, readValue_scalar ⟨hother _ rfl, hother _ rfl, hother _ rfl⟩]
    exact h rest hrest
  · intro hreturn
    exact absurd (hchars _ hreturn) (by decide)

theorem denotes_null : Denotes "null".toList .nil :=
  denotes_scalar (by decide) (List.all_eq_true.mp (by decide)) fun _ _ => rfl

theorem denotes_bool (b : Bool) : Denotes (if b then "true" else "false").toList (.bool b) := by
  cases b with
  | true => exact denotes_scalar (by decide) (List.all_eq_true.mp (by decide)) fun _ _ => rfl
  | false => exact denotes_scalar (by decide) (List.all_eq_true.mp (by decide)) fun _ _ => rfl

theorem isScalarChar_spelling (s : Number.Spelling) {c : Char} (hc : c ∈ s.chars) :
    isScalarChar c :=
  s.forall_mem_chars (fun _ => isScalarChar_of_isAsciiDigit) rfl rfl rfl rfl c hc

theorem isScalarChar_signed {negative : Bool} {cs : List Char} (h : ∀ c ∈ cs, isScalarChar c)
    {c : Char} (hc : c ∈ signed negative cs) : isScalarChar c := by
  cases negative with
  | false => exact h c hc
  | true =>
    rcases List.mem_cons.mp hc with rfl | hc
    · rfl
    · exact h c hc

theorem signed_ne_nil (negative : Bool) {cs : List Char} (h : cs ≠ []) :
    signed negative cs ≠ [] := by
  cases negative with
  | false => exact h
  | true => exact List.cons_ne_nil _ _

theorem denotes_number {x : Float} (hx : Number.magnitude x ≤ Number.infinityMagnitude) :
    Denotes (numberLayout.text x).toList (.number x) := by
  apply denotes_scalar
  · rw [toList_text numberLayout hx]
    apply signed_ne_nil
    split
    · decide
    · next h =>
      obtain ⟨s, hs, -⟩ := numberLayout.exists_spelling_shortest (Nat.lt_of_le_of_ne hx h)
      rw [← hs]
      simp [Number.Spelling.chars, s.whole_ne_nil]
  · intro c hc
    rw [toList_text numberLayout hx] at hc
    refine isScalarChar_signed ?_ hc
    split
    · exact List.all_eq_true.mp (by decide)
    · next h =>
      obtain ⟨s, hs, -⟩ := numberLayout.exists_spelling_shortest (Nat.lt_of_le_of_ne hx h)
      intro c hc
      rw [← hs] at hc
      exact isScalarChar_spelling s hc
  · intro rest hrest
    exact readScalar_number hx hrest

theorem denotes_integer {n : ℤ} (hn : (Nat.toDigits 10 n.natAbs).length ≤ Number.maxDigits) :
    Denotes (toString n).toList (.integer n) := by
  apply denotes_scalar
  · rw [toList_toString_int]
    exact signed_ne_nil _ Nat.toDigits_ne_nil
  · intro c hc
    rw [toList_toString_int] at hc
    refine isScalarChar_signed ?_ hc
    intro c hc
    exact isScalarChar_of_isAsciiDigit (Number.isAsciiDigit_of_mem_toDigits hc)
  · intro rest hrest
    exact readScalar_integer hn hrest

theorem noReturn_escapedChar (c : Char) : '\r' ∉ escapedChar c := by
  have hhex : ∀ n < 32, '\r' ∉ '\\' :: 'u' :: Text.hex 4 n := by decide +kernel
  unfold escapedChar
  split
  · decide
  · decide
  · decide
  · decide
  · decide
  · decide
  · decide
  · next _ _ _ hreturn _ _ _ =>
    split
    · next hc => exact hhex _ hc
    · intro hmem
      exact hreturn (List.mem_singleton.mp hmem).symm

theorem toList_writeChars (s : String) :
    (writeChars s).toList = '"' :: (s.toList.flatMap escapedChar ++ ['"']) := by
  unfold writeChars
  rw [String.toList_ofList, List.cons_append]

theorem noReturn_writeChars (s : String) : '\r' ∉ (writeChars s).toList := by
  rw [toList_writeChars]
  simp only [List.mem_cons, List.mem_append, List.mem_flatMap, List.not_mem_nil, or_false, not_or,
    not_exists, not_and]
  exact ⟨by decide, fun c _ => noReturn_escapedChar c, by decide⟩

theorem readString_writeChars (s : String) (rest : List Char) :
    ∃ cs, (writeChars s).toList ++ rest = '"' :: cs ∧ readString cs = .ok (s, rest) := by
  refine ⟨s.toList.flatMap escapedChar ++ '"' :: rest, ?_, readString_escaped s rest⟩
  rw [toList_writeChars]
  simp

theorem denotes_string (s : String) : Denotes (writeChars s).toList (.string s) := by
  constructor
  · rw [toList_writeChars]
    exact ⟨'"', rfl, by decide⟩
  · intro fuel rest hfuel _
    obtain ⟨fuel, rfl⟩ := Nat.exists_eq_succ_of_ne_zero (show fuel ≠ 0 by
      rw [toList_writeChars, List.length_cons] at hfuel
      omega)
    obtain ⟨cs, hcs, hread⟩ := readString_writeChars s rest
    rw [hcs, readValue, hread]
    rfl
  · exact noReturn_writeChars s

section Brackets

variable {blanks out : List Char}

theorem delimits_of_blanks (hout : ∀ c ∈ out, isBlank c) {closing : Char} (rest : List Char)
    (hclosing : Delimits (closing :: rest)) : Delimits (out ++ closing :: rest) := by
  cases out with
  | nil => exact hclosing
  | cons c cs =>
    intro d hd
    obtain rfl := Option.mem_some.mp hd
    have hblank := hout c List.mem_cons_self
    simp only [isBlank, Bool.or_eq_true, beq_iff_eq] at hblank
    rcases hblank with ((rfl | rfl) | rfl) | rfl <;> decide

theorem delimits_cons {c : Char} (rest : List Char)
    (h : ¬ isAsciiDigit c ∧ c ≠ '.' ∧ c ≠ 'e' ∧ c ≠ 'E') : Delimits (c :: rest) := by
  intro d hd
  obtain rfl := Option.mem_some.mp hd
  exact h

theorem readItems_last {fuel : ℕ} {cs rest rest' : List Char} {v : Value}
    (hv : readValue fuel cs = .ok (v, rest)) (hend : skipBlanks rest = ']' :: rest') :
    readItems (fuel + 1) cs = .ok ([v], rest') := by
  rw [readItems, hv]
  simp only [bind, Except.bind, hend]

theorem readItems_more {fuel : ℕ} {cs rest more rest' : List Char} {v : Value} {vs : List Value}
    (hv : readValue fuel cs = .ok (v, rest)) (hcomma : skipBlanks rest = ',' :: more)
    (hvs : readItems fuel (skipBlanks more) = .ok (vs, rest')) :
    readItems (fuel + 1) cs = .ok (v :: vs, rest') := by
  rw [readItems, hv]
  simp only [bind, Except.bind, hcomma, hvs]

theorem skipBlanks_cons {c : Char} (h : isBlank c = false) (rest : List Char) :
    skipBlanks (c :: rest) = c :: rest := by
  change (c :: rest).dropWhile isBlank = c :: rest
  simp [h]

theorem skipBlanks_closing (hout : ∀ c ∈ out, isBlank c) {closing : Char}
    (hclosing : isBlank closing = false) (rest : List Char) :
    skipBlanks (out ++ closing :: rest) = closing :: rest := by
  apply skipBlanks_blanks hout
  intro c hc
  obtain rfl := Option.mem_some.mp hc
  exact hclosing

/-- The items of a list are read one after the other, up to the closing bracket. -/
theorem readItems_texts (hblanks : ∀ c ∈ blanks, isBlank c) (hout : ∀ c ∈ out, isBlank c)
    {texts : List (List Char)} {vs : List Value} (h : List.Forall₂ Denotes texts vs)
    (hne : texts ≠ []) {fuel : ℕ} (rest : List Char)
    (hfuel : ((',' :: blanks).intercalate texts).length < fuel) :
    readItems fuel ((',' :: blanks).intercalate texts ++ (out ++ ']' :: rest)) =
      .ok (vs, rest) := by
  induction h generalizing fuel with
  | nil => exact absurd rfl hne
  | @cons t v ts vs ht hts ih =>
    obtain ⟨fuel, rfl⟩ := Nat.exists_eq_succ_of_ne_zero (show fuel ≠ 0 by omega)
    cases hts with
    | nil =>
      rw [List.intercalate_singleton] at hfuel ⊢
      have hrest := delimits_of_blanks hout rest (delimits_cons (c := ']') rest (by decide))
      exact readItems_last (ht.reads fuel _ (by omega) hrest)
        (skipBlanks_closing hout (by decide) rest)
    | @cons u w us ws hu hus =>
      have hlength : t.length + ((',' :: blanks).intercalate (u :: us)).length < fuel := by
        rw [List.intercalate_cons_cons] at hfuel
        simp only [List.length_append, List.length_cons] at hfuel
        omega
      have hbegins := (hu.begins.intercalate (',' :: blanks) us).append (out ++ ']' :: rest)
      rw [List.intercalate_cons_cons, List.append_assoc, List.append_assoc, List.cons_append]
      refine readItems_more (ht.reads fuel _ (by omega) (delimits_cons _ (by decide)))
        (skipBlanks_cons (by decide) _) ?_
      rw [hbegins.skipBlanks hblanks]
      exact ih (List.cons_ne_nil _ _) (by omega)

/-- A text that is read as a key and its value. -/
def DenotesMember (text : List Char) (m : Text × Value) : Prop :=
  ∃ key t, m.1 = .whole key ∧ text = (writeChars key).toList ++ ':' :: ' ' :: t ∧ Denotes t m.2

theorem DenotesMember.begins {text : List Char} {m : Text × Value} (h : DenotesMember text m) :
    Begins text := by
  obtain ⟨key, t, -, rfl, -⟩ := h
  exact (denotes_string key).begins.append _

theorem DenotesMember.noReturn {text : List Char} {m : Text × Value} (h : DenotesMember text m) :
    '\r' ∉ text := by
  obtain ⟨key, t, -, rfl, ht⟩ := h
  simp [noReturn_writeChars, ht.noReturn]

/-- How a member is read: the key, and the value after the colon. -/
theorem DenotesMember.reads {text : List Char} {m : Text × Value} (h : DenotesMember text m)
    {fuel : ℕ} (rest : List Char) (hfuel : text.length ≤ fuel) (hrest : Delimits rest) :
    ∃ cs afterKey more, text ++ rest = '"' :: cs ∧ readString cs = .ok (m.1, afterKey) ∧
      skipBlanks afterKey = ':' :: more ∧ readValue fuel (skipBlanks more) = .ok (m.2, rest) := by
  obtain ⟨key, t, hkey, rfl, ht⟩ := h
  obtain ⟨cs, hcs, hread⟩ := readString_writeChars key (':' :: ' ' :: (t ++ rest))
  refine ⟨cs, _, ' ' :: (t ++ rest), ?_, hkey ▸ hread, ?_, ?_⟩
  · rw [← hcs]
    simp
  · exact skipBlanks_cons (by decide) _
  · have hskip : skipBlanks ([' '] ++ (t ++ rest)) = t ++ rest :=
      (ht.begins.append rest).skipBlanks (by simp [isBlank])
    rw [List.singleton_append] at hskip
    rw [hskip]
    apply ht.reads
    · simp only [List.length_append, List.length_cons] at hfuel
      omega
    · exact hrest

theorem readMembers_last {fuel : ℕ} {text rest rest' : List Char} {m : Text × Value}
    (hm : DenotesMember text m) (hfuel : text.length ≤ fuel) (hrest : Delimits rest)
    (hend : skipBlanks rest = '\x7d' :: rest') :
    readMembers (fuel + 1) (text ++ rest) = .ok ([m], rest') := by
  obtain ⟨cs, afterKey, more, htext, hkey, hcolon, hv⟩ := hm.reads rest hfuel hrest
  rw [htext, readMembers, hkey]
  simp only [bind, Except.bind, hcolon, hv, hend]

theorem readMembers_more {fuel : ℕ} {text rest more rest' : List Char} {m : Text × Value}
    {ms : List (Text × Value)}
    (hm : DenotesMember text m) (hfuel : text.length ≤ fuel) (hrest : Delimits rest)
    (hcomma : skipBlanks rest = ',' :: more)
    (hms : readMembers fuel (skipBlanks more) = .ok (ms, rest')) :
    readMembers (fuel + 1) (text ++ rest) = .ok (m :: ms, rest') := by
  obtain ⟨cs, afterKey, more', htext, hkey, hcolon, hv⟩ := hm.reads rest hfuel hrest
  rw [htext, readMembers, hkey]
  simp only [bind, Except.bind, hcolon, hv, hcomma, hms]

/-- The members of a dictionary are read one after the other, up to the closing brace. -/
theorem readMembers_texts (hblanks : ∀ c ∈ blanks, isBlank c) (hout : ∀ c ∈ out, isBlank c)
    {texts : List (List Char)} {ms : List (Text × Value)}
    (h : List.Forall₂ DenotesMember texts ms)
    (hne : texts ≠ []) {fuel : ℕ} (rest : List Char)
    (hfuel : ((',' :: blanks).intercalate texts).length < fuel) :
    readMembers fuel ((',' :: blanks).intercalate texts ++ (out ++ '\x7d' :: rest)) =
      .ok (ms, rest) := by
  induction h generalizing fuel with
  | nil => exact absurd rfl hne
  | @cons t m ts ms ht hts ih =>
    obtain ⟨fuel, rfl⟩ := Nat.exists_eq_succ_of_ne_zero (show fuel ≠ 0 by omega)
    cases hts with
    | nil =>
      rw [List.intercalate_singleton] at hfuel ⊢
      have hrest := delimits_of_blanks hout rest (delimits_cons (c := '\x7d') rest (by decide))
      exact readMembers_last ht (by omega) hrest (skipBlanks_closing hout (by decide) rest)
    | @cons u n us ns hu hus =>
      have hlength : t.length + ((',' :: blanks).intercalate (u :: us)).length < fuel := by
        rw [List.intercalate_cons_cons] at hfuel
        simp only [List.length_append, List.length_cons] at hfuel
        omega
      have hbegins := (hu.begins.intercalate (',' :: blanks) us).append (out ++ '\x7d' :: rest)
      rw [List.intercalate_cons_cons, List.append_assoc, List.append_assoc, List.cons_append]
      refine readMembers_more ht (by omega) (delimits_cons _ (by decide))
        (skipBlanks_cons (by decide) _) ?_
      rw [hbegins.skipBlanks hblanks]
      exact ih (List.cons_ne_nil _ _) (by omega)

end Brackets

theorem insertMember_of_not_mem {key : Text} (v : Value) {seen : List (Text × Value)}
    (h : key ∉ seen.map (·.1)) : insertMember key v seen = seen ++ [(key, v)] := by
  induction seen with
  | nil => rfl
  | cons m seen ih =>
    rw [List.map_cons, List.mem_cons, not_or] at h
    rw [insertMember, if_neg (Ne.symm h.1), ih h.2, List.cons_append]

/-- Nothing is lost from members with different keys. -/
theorem lastMembers_of_nodup {members : List (Text × Value)} (h : (members.map (·.1)).Nodup) :
    lastMembers members = members := by
  suffices hseen : ∀ seen : List (Text × Value), ((seen ++ members).map (·.1)).Nodup →
      members.foldl (fun seen m => insertMember m.1 m.2 seen) seen = seen ++ members by
    exact hseen [] h
  clear h
  induction members with
  | nil =>
    intro seen _
    simp
  | cons m members ih =>
    intro seen h
    obtain ⟨key, v⟩ := m
    have hkey : key ∉ seen.map (·.1) := by
      intro hmem
      rw [List.map_append, List.map_cons] at h
      exact (List.disjoint_of_nodup_append h) hmem List.mem_cons_self
    rw [List.foldl_cons]
    simp only [insertMember_of_not_mem v hkey]
    rw [ih]
    · simp
    · simpa using h

end LoxLang.Json
