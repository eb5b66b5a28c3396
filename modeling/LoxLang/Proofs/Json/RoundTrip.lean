import Mathlib.Tactic.SplitIfs
import LoxLang.Proofs.Json.Denotes

/-!
Written data are read back. Data that hold no token, node or result that is no number, only whole
texts, only whole numbers within the limit of digits and no key twice have a text, and the text
denotes them.
-/
namespace LoxLang.Json

/-- A style that sets items apart by commas and blanks. -/
structure Style.Spaced (style : Style) : Prop where
  inside : ∀ depth, ∀ c ∈ (style.inside depth).toList, c = ' ' ∨ c = '\n'
  outside : ∀ depth, ∀ c ∈ (style.outside depth).toList, c = ' ' ∨ c = '\n'
  between : ∀ depth, ∃ blanks, (style.between depth).toList = ',' :: blanks ∧
    ∀ c ∈ blanks, c = ' ' ∨ c = '\n'

theorem newline_chars (depth : ℕ) {c : Char} (h : c ∈ (newline depth).toList) :
    c = ' ' ∨ c = '\n' := by
  unfold newline at h
  rw [String.toList_ofList] at h
  rcases List.mem_cons.mp h with hfeed | hspace
  · exact .inr hfeed
  · exact .inl (List.eq_of_mem_replicate hspace)

theorem indented_spaced : indented.Spaced where
  inside depth _ h := newline_chars (depth + 1) h
  outside depth _ h := newline_chars depth h
  between depth := ⟨(newline (depth + 1)).toList, String.toList_append, fun _ h => newline_chars _ h⟩

theorem isBlank_of_space {cs : List Char} (h : ∀ c ∈ cs, c = ' ' ∨ c = '\n') :
    ∀ c ∈ cs, isBlank c := by
  intro c hc
  rcases h c hc with rfl | rfl
  · rfl
  · rfl

theorem noReturn_of_space {cs : List Char} (h : ∀ c ∈ cs, c = ' ' ∨ c = '\n') : '\r' ∉ cs := by
  intro hc
  rcases h _ hc with h | h
  · exact absurd h (by decide)
  · exact absurd h (by decide)

/-- The text between brackets, as the reader meets it. -/
theorem toList_bracketed (style : Style) (depth : ℕ) (opening closing : String) {texts : List String}
    (hne : texts ≠ []) (rest : List Char) :
    (bracketed style depth opening closing texts).toList ++ rest =
      opening.toList ++ ((style.inside depth).toList ++
        ((style.between depth).toList.intercalate (texts.map String.toList) ++
          ((style.outside depth).toList ++ (closing.toList ++ rest)))) := by
  unfold bracketed
  split
  · exact absurd rfl hne
  · simp [String.toList_intercalate]

theorem noReturn_intercalate {sep : List Char} {texts : List (List Char)} (hsep : '\r' ∉ sep)
    (h : ∀ t ∈ texts, '\r' ∉ t) : '\r' ∉ sep.intercalate texts := by
  induction texts with
  | nil => simp
  | cons t ts ih =>
    cases ts with
    | nil =>
      rw [List.intercalate_singleton]
      exact h t List.mem_cons_self
    | cons u us =>
      rw [List.intercalate_cons_cons, List.mem_append, List.mem_append, not_or, not_or]
      exact ⟨⟨h t List.mem_cons_self, hsep⟩, ih fun t ht => h t (List.mem_cons_of_mem _ ht)⟩

theorem noReturn_bracketed {style : Style} (hstyle : style.Spaced) (depth : ℕ)
    (opening closing : String) (ho : '\r' ∉ opening.toList) (hc : '\r' ∉ closing.toList)
    {texts : List String} (h : ∀ t ∈ texts, '\r' ∉ t.toList) :
    '\r' ∉ (bracketed style depth opening closing texts).toList := by
  by_cases hne : texts = []
  · subst hne
    rw [bracketed, String.toList_append, List.mem_append, not_or]
    exact ⟨ho, hc⟩
  · obtain ⟨blanks, hbetween, hblanks⟩ := hstyle.between depth
    have hsep : '\r' ∉ (style.between depth).toList := by
      rw [hbetween, List.mem_cons, not_or]
      exact ⟨by decide, noReturn_of_space hblanks⟩
    have hall : '\r' ∉ (style.between depth).toList.intercalate (texts.map String.toList) :=
      noReturn_intercalate hsep (by simpa using h)
    have htext := toList_bracketed style depth opening closing hne []
    rw [List.append_nil] at htext
    rw [htext]
    simp only [List.mem_append, not_or, List.append_nil]
    exact ⟨ho, noReturn_of_space (hstyle.inside depth), hall,
      noReturn_of_space (hstyle.outside depth), hc⟩

theorem readValue_list {fuel : ℕ} {cs text rest : List Char} {vs : List Value}
    (hskip : skipBlanks cs = text) (hbegins : Begins text)
    (h : readItems fuel text = .ok (vs, rest)) :
    readValue (fuel + 1) ('[' :: cs) = .ok (.list vs, rest) := by
  obtain ⟨c, hc, -, hclosing, -⟩ := hbegins
  obtain ⟨cs', rfl⟩ := List.head?_eq_some_iff.mp hc
  rw [readValue, hskip]
  split
  · next heq => exact absurd (List.cons.inj heq).1 hclosing
  · rw [h]
    rfl

theorem readValue_dict {fuel : ℕ} {cs text rest : List Char} {ms : List (Text × Value)}
    (hskip : skipBlanks cs = text) (hbegins : Begins text)
    (h : readMembers fuel text = .ok (ms, rest)) :
    readValue (fuel + 1) ('\x7b' :: cs) = .ok (.dict (lastMembers ms), rest) := by
  obtain ⟨c, hc, -, -, hclosing⟩ := hbegins
  obtain ⟨cs', rfl⟩ := List.head?_eq_some_iff.mp hc
  rw [readValue, hskip]
  split
  · next heq => exact absurd (List.cons.inj heq).1 hclosing
  · rw [h]
    rfl

/-- Items between brackets denote a value if the reader takes them for it, however they are set. -/
theorem denotes_bracketed {style : Style} (hstyle : style.Spaced) (depth : ℕ)
    {opening closing : String} {o c : Char} (ho : opening.toList = [o]) (hc : closing.toList = [c])
    (hreturn : '\r' ∉ [o, c]) (hbegins : Begins [o]) {texts : List String} {v : Value}
    (htexts : ∀ t ∈ texts, '\r' ∉ t.toList)
    (hempty : texts = [] → ∀ fuel rest, readValue (fuel + 1) (o :: c :: rest) = .ok (v, rest))
    (hfull : texts ≠ [] → ∀ fuel rest inside blanks out, (∀ d ∈ inside, isBlank d) →
      (∀ d ∈ blanks, isBlank d) → (∀ d ∈ out, isBlank d) →
      ((',' :: blanks).intercalate (texts.map String.toList)).length < fuel →
      readValue (fuel + 1) (o :: (inside ++
        ((',' :: blanks).intercalate (texts.map String.toList) ++ (out ++ c :: rest)))) =
          .ok (v, rest)) :
    Denotes (bracketed style depth opening closing texts).toList v := by
  have hlast := noReturn_bracketed hstyle depth opening closing
    (by simp_all) (by simp_all) htexts
  by_cases hne : texts = []
  · have htext : (bracketed style depth opening closing texts).toList = [o, c] := by
      rw [hne, bracketed, String.toList_append, ho, hc]
      rfl
    rw [htext] at hlast ⊢
    refine ⟨hbegins.append [c], ?_, hlast⟩
    intro fuel rest hfuel _
    obtain ⟨fuel, rfl⟩ := Nat.exists_eq_succ_of_ne_zero (show fuel ≠ 0 by
      simp only [List.length_cons] at hfuel
      omega)
    exact hempty hne fuel rest
  · obtain ⟨blanks, hbetween, hblanks⟩ := hstyle.between depth
    have htext := toList_bracketed style depth opening closing hne
    rw [ho, hc, hbetween] at htext
    refine ⟨?_, ?_, hlast⟩
    · have hfirst := htext []
      rw [List.append_nil] at hfirst
      rw [hfirst]
      exact hbegins.append _
    · intro fuel rest hfuel _
      have hlength := congrArg List.length (htext [])
      simp only [List.length_append, List.length_nil, List.length_cons] at hlength
      obtain ⟨fuel, rfl⟩ := Nat.exists_eq_succ_of_ne_zero (show fuel ≠ 0 by omega)
      rw [htext]
      apply hfull hne
      · exact isBlank_of_space (hstyle.inside depth)
      · exact isBlank_of_space hblanks
      · exact isBlank_of_space (hstyle.outside depth)
      · omega

theorem forall_left {α β : Type} {R : α → β → Prop} {as : List α} {bs : List β}
    (h : List.Forall₂ R as bs) {P : α → Prop} (hR : ∀ a b, R a b → P a) : ∀ a ∈ as, P a := by
  induction h with
  | nil => simp
  | cons hab _ ih => exact List.forall_mem_cons.mpr ⟨hR _ _ hab, ih⟩

theorem denotes_list {style : Style} (hstyle : style.Spaced) (depth : ℕ) {texts : List String}
    {vs : List Value} (h : List.Forall₂ (fun t v => Denotes t.toList v) texts vs) :
    Denotes (bracketed style depth "[" "]" texts).toList (.list vs) := by
  apply denotes_bracketed hstyle depth (o := '[') (c := ']') rfl rfl (by decide)
    ⟨'[', rfl, by decide⟩
  · exact forall_left h fun _ _ ht => ht.noReturn
  · rintro rfl
    cases h
    intro fuel rest
    rfl
  · intro hne fuel rest inside blanks out hinside hblanks hout hfuel
    have hitems := List.forall₂_map_left_iff.mpr h
    obtain ⟨t, ts, htexts⟩ := List.exists_cons_of_ne_nil (show texts.map String.toList ≠ [] by
      simpa using hne)
    rw [htexts] at hfuel hitems ⊢
    cases hitems with
    | cons ht hts =>
      have hbegins := ((ht.begins.intercalate (',' :: blanks) ts).append (out ++ ']' :: rest))
      exact readValue_list (hbegins.skipBlanks hinside) hbegins
        (readItems_texts hblanks hout (.cons ht hts) (List.cons_ne_nil _ _) rest hfuel)

theorem denotes_dict {style : Style} (hstyle : style.Spaced) (depth : ℕ) {texts : List String}
    {ms : List (Text × Value)} (hkeys : (ms.map (·.1)).Nodup)
    (h : List.Forall₂ (fun t m => DenotesMember t.toList m) texts ms) :
    Denotes (bracketed style depth "\x7b" "\x7d" texts).toList (.dict ms) := by
  apply denotes_bracketed hstyle depth (o := '\x7b') (c := '\x7d') rfl rfl (by decide)
    ⟨'\x7b', rfl, by decide⟩
  · exact forall_left h fun _ _ ht => ht.noReturn
  · rintro rfl
    cases h
    intro fuel rest
    rfl
  · intro hne fuel rest inside blanks out hinside hblanks hout hfuel
    have hitems := List.forall₂_map_left_iff.mpr h
    obtain ⟨t, ts, htexts⟩ := List.exists_cons_of_ne_nil (show texts.map String.toList ≠ [] by
      simpa using hne)
    rw [htexts] at hfuel hitems ⊢
    cases hitems with
    | cons ht hts =>
      have hbegins := ((ht.begins.intercalate (',' :: blanks) ts).append (out ++ '\x7d' :: rest))
      rw [← lastMembers_of_nodup hkeys]
      exact readValue_dict (hbegins.skipBlanks hinside) hbegins
        (readMembers_texts hblanks hout (.cons ht hts) (List.cons_ne_nil _ _) rest hfuel)

mutual

/-- Data with a text that denotes them. -/
def Portable : Value → Prop
  | .nil | .bool _ => True
  | .string s => s.isWhole
  | .number x => Number.magnitude x ≤ Number.infinityMagnitude
  | .integer n => (Nat.toDigits 10 n.natAbs).length ≤ Number.maxDigits
  | .list items => AllPortable items
  | .dict members => (members.map (·.1)).Nodup ∧ MembersPortable members
  | _ => False

def AllPortable : List Value → Prop
  | [] => True
  | v :: vs => Portable v ∧ AllPortable vs

def MembersPortable : List (Text × Value) → Prop
  | [] => True
  | (key, v) :: rest => key.isWhole ∧ Portable v ∧ MembersPortable rest

end

mutual

theorem write_denotes {style : Style} (hstyle : style.Spaced) (depth : ℕ) :
    (v : Value) → Portable v → ∃ text, write style depth v = .ok text ∧ Denotes text.toList v
  | .nil, _ => ⟨_, rfl, denotes_null⟩
  | .bool b, _ => ⟨_, rfl, denotes_bool b⟩
  | .string (.whole s), _ => ⟨_, rfl, denotes_string s⟩
  | .number _, h => ⟨_, rfl, denotes_number h⟩
  | .integer _, h => ⟨_, rfl, denotes_integer h⟩
  | .list items, h => by
    obtain ⟨texts, hwrite, htexts⟩ := writeItems_denotes hstyle (depth + 1) items h
    refine ⟨_, ?_, denotes_list hstyle depth htexts⟩
    rw [write, hwrite]
    rfl
  | .dict members, h => by
    obtain ⟨texts, hwrite, htexts⟩ := writeMembers_denotes hstyle (depth + 1) members h.2
    refine ⟨_, ?_, denotes_dict hstyle depth h.1 htexts⟩
    rw [write, hwrite]
    rfl

theorem writeItems_denotes {style : Style} (hstyle : style.Spaced) (depth : ℕ) :
    (vs : List Value) → AllPortable vs → ∃ texts, writeItems style depth vs = .ok texts ∧
      List.Forall₂ (fun t v => Denotes t.toList v) texts vs
  | [], _ => ⟨[], rfl, .nil⟩
  | v :: vs, h => by
    obtain ⟨text, hwrite, htext⟩ := write_denotes hstyle depth v h.1
    obtain ⟨texts, hwrites, htexts⟩ := writeItems_denotes hstyle depth vs h.2
    refine ⟨text :: texts, ?_, .cons htext htexts⟩
    rw [writeItems, hwrite, hwrites]
    rfl

theorem writeMembers_denotes {style : Style} (hstyle : style.Spaced) (depth : ℕ) :
    (ms : List (Text × Value)) → MembersPortable ms →
      ∃ texts, writeMembers style depth ms = .ok texts ∧
        List.Forall₂ (fun t m => DenotesMember t.toList m) texts ms
  | [], _ => ⟨[], rfl, .nil⟩
  | (.whole key, v) :: ms, h => by
    obtain ⟨-, hv, hms⟩ := h
    obtain ⟨text, hwrite, htext⟩ := write_denotes hstyle depth v hv
    obtain ⟨texts, hwrites, htexts⟩ := writeMembers_denotes hstyle depth ms hms
    refine ⟨(writeChars key ++ ": " ++ text) :: texts, ?_,
      .cons ⟨key, text.toList, rfl, ?_, htext⟩ htexts⟩
    · rw [writeMembers, hwrite, hwrites]
      rfl
    · simp

end

/-- Portable data have a text without carriage returns that is read as the data. -/
theorem read_write {style : Style} (hstyle : style.Spaced) {v : Value} (h : Portable v) :
    ∃ text, write style 0 v = .ok text ∧ read text = .ok v ∧ '\r' ∉ text.toList := by
  obtain ⟨text, hwrite, htext⟩ := write_denotes hstyle 0 v h
  refine ⟨text, hwrite, ?_, htext.noReturn⟩
  have hskip : skipBlanks ([] ++ text.toList) = text.toList := htext.begins.skipBlanks (by simp)
  rw [List.nil_append] at hskip
  have hread := htext.reads (2 * text.toList.length + 2) [] (by omega) (by simp [Delimits])
  rw [List.append_nil] at hread
  unfold read
  simp only [hskip, hread]
  rfl

end LoxLang.Json
