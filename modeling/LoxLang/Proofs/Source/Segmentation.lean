import Mathlib.Data.List.Forall2
import LoxLang.Proofs.Source.Terminal
import LoxLang.Source.Scan

/-!
A source text is cut into segments in exactly one way, and each segment leaves behind exactly what
its kind calls for: a token, a problem or nothing, on the line where it starts, or for what begins
with a quote on the line where it ends.
-/
namespace LoxLang.Source

open Text

/-- The segments are cut off one after the other until nothing is left. -/
inductive Cuts : List Segment → List Char → Prop where
  | nil : Cuts [] []
  | cons {s : Segment} {ss : List Segment} {rest : List Char} (h : Front s (s.text ++ rest))
      (hrest : Cuts ss rest) : Cuts (s :: ss) (s.text ++ rest)

theorem cuts_segments (cs : List Char) : Cuts (segments cs) cs := by
  fun_induction segments cs with
  | case1 => exact .nil
  | case2 c cs kind n hclass ih =>
    have hfront := front_classify c cs
    rw [hclass] at hfront
    have hcut : c :: cs = c :: cs.take n ++ cs.drop n := by simp
    rw [hcut] at hfront ⊢
    exact .cons hfront ih

theorem Front.text_ne_nil {s : Segment} {cs : List Char} (h : Front s cs) : s.text ≠ [] := by
  cases h with
  | longest h => exact h.regular.ne_nil
  | unterminated => simp
  | stray => simp

theorem Cuts.flatMap_text {ss : List Segment} {cs : List Char} (h : Cuts ss cs) :
    ss.flatMap (·.text) = cs := by
  induction h with
  | nil => rfl
  | cons _ _ ih => rw [List.flatMap_cons, ih]

theorem Cuts.front {ss : List Segment} {cs : List Char} (h : Cuts ss cs) (s : Segment)
    (hs : s ∈ ss) : ∃ cs', Front s cs' := by
  induction h with
  | nil => cases hs
  | cons hfront _ ih =>
    cases hs with
    | head => exact ⟨_, hfront⟩
    | tail _ hs => exact ih hs

/-- A text is cut in one way only. -/
theorem Cuts.unique {ss ss' : List Segment} {cs : List Char} (h : Cuts ss cs) (h' : Cuts ss' cs) :
    ss = ss' := by
  induction h generalizing ss' with
  | nil =>
    cases ss' with
    | nil => rfl
    | cons s' ss' =>
      have hne := (h'.front s' (List.mem_cons_self ..)).choose_spec.text_ne_nil
      have hnil := h'.flatMap_text
      simp [hne] at hnil
  | @cons s ss rest hfront hrest ih =>
    generalize hcs : s.text ++ rest = cs at h'
    cases h' with
    | nil => exact absurd (List.append_eq_nil_iff.mp hcs).1 hfront.text_ne_nil
    | @cons s' ss' rest' hfront' hrest' =>
      obtain rfl : s = s' := Front.unique (hcs ▸ hfront) hfront'
      have hr : rest = rest' := List.append_cancel_left hcs
      rw [ih (hr ▸ hrest')]

/-- Each segment with the text in front of it. -/
def placed (before : List Char) : List Segment → List (List Char × Segment)
  | [] => []
  | s :: ss => (before, s) :: placed (before ++ s.text) ss

/-- Whether a segment stands for a token. -/
def Segment.isToken (s : Segment) : Bool :=
  match s.kind with
  | .word | .number | .string | .operator _ => true
  | _ => false

def Segment.isProblem (s : Segment) : Bool :=
  match s.kind with
  | .unterminated | .stray => true
  | _ => false

/-- The line after a text. -/
def lineAfter (cs : List Char) : Nat :=
  1 + cs.count '\n'

/-- The token that a segment stands for when the given text is in front of it. -/
def TokenOf : List Char × Segment → Token → Prop
  | (before, s), t =>
    t.lexeme = String.ofList s.text ∧
    match s.kind with
    | .word =>
      (∀ k, (t.lexeme, k) ∈ TokenKind.keywords → t.kind = k) ∧
      ((∀ k, (t.lexeme, k) ∉ TokenKind.keywords) → t.kind = .identifier) ∧
      t.literal = .nil ∧ t.line = lineAfter before
    | .number =>
      t.kind = .number ∧ t.line = lineAfter before ∧
      ∃ integral fraction, '.' ∉ integral ∧
        (s.text = integral ∧ fraction = [] ∨ s.text = integral ++ '.' :: fraction) ∧
        t.literal = .number
          (Number.Decimal.mk (ofDigits 0 (integral ++ fraction)) (-(fraction.length : Int))).toFloat
    | .string =>
      t.kind = .string ∧ t.line = lineAfter (before ++ s.text) ∧
      ∃ body, s.text = '"' :: (body ++ ['"']) ∧ t.literal = .string (String.ofList body)
    | .operator kind => t.kind = kind ∧ t.literal = .nil ∧ t.line = lineAfter before
    | _ => False

/-- The problem that a segment is when the given text is in front of it. -/
def ProblemOf : List Char × Segment → Diagnostic → Prop
  | (before, s), d =>
    match s.kind with
    | .stray => d = .lexical (lineAfter before) "Unexpected character."
    | .unterminated => d = .lexical (lineAfter (before ++ s.text)) "Unterminated string."
    | _ => False

/-- The kinds of words: the reserved ones have their own, all others are identifiers. -/
theorem ofWord_spec (word : String) :
    (∀ k, (word, k) ∈ TokenKind.keywords → TokenKind.ofWord word = k) ∧
    ((∀ k, (word, k) ∉ TokenKind.keywords) → TokenKind.ofWord word = .identifier) := by
  constructor
  · have hall : ∀ entry ∈ TokenKind.keywords, TokenKind.ofWord entry.1 = entry.2 := by decide
    exact fun k hk => hall _ hk
  · intro hnone
    have hlookup : TokenKind.keywords.lookup word = none := by
      rw [List.lookup_eq_none_iff]
      intro entry hentry
      rw [bne_iff_ne]
      rintro rfl
      exact hnone _ hentry
    rw [TokenKind.ofWord, hlookup, Option.getD_none]

theorem numeral_spec {text : List Char} (h : Regular .number text) :
    ∃ integral fraction, '.' ∉ integral ∧
      (text = integral ∧ fraction = [] ∨ text = integral ++ '.' :: fraction) ∧
      numeral text =
        (Number.Decimal.mk (ofDigits 0 (integral ++ fraction)) (-(fraction.length : Int))).toFloat := by
  have hpoint : ∀ ds : List Char, (∀ d ∈ ds, isAsciiDigit d) → '.' ∉ ds :=
    fun ds hds hmem => not_isAsciiDigit_point (hds _ hmem)
  cases h with
  | @whole c cs hc hcs =>
    have hno : '.' ∉ c :: cs := hpoint _ (List.forall_mem_cons.mpr ⟨hc, hcs⟩)
    refine ⟨c :: cs, [], hno, .inl ⟨rfl, rfl⟩, ?_⟩
    have htake : (c :: cs).takeWhile (· != '.') = c :: cs :=
      List.takeWhile_eq_self_iff.mpr fun d hd => bne_iff_ne.mpr fun hp => hno (hp ▸ hd)
    have hdrop : (c :: cs).drop ((c :: cs).length + 1) = [] := List.drop_eq_nil_of_le (by omega)
    simp only [numeral, htake, hdrop]
  | @fraction c d cs ds hc hcs hd hds =>
    have hno : '.' ∉ c :: cs := hpoint _ (List.forall_mem_cons.mpr ⟨hc, hcs⟩)
    refine ⟨c :: cs, d :: ds, hno, .inr rfl, ?_⟩
    have htake : (c :: (cs ++ '.' :: d :: ds)).takeWhile (· != '.') = c :: cs := by
      rw [← List.cons_append, List.takeWhile_append_of_pos, List.takeWhile_cons_of_neg (by decide),
        List.append_nil]
      exact fun x hx => bne_iff_ne.mpr fun hp => hno (hp ▸ hx)
    have hdrop : (c :: (cs ++ '.' :: d :: ds)).drop ((c :: cs).length + 1) = d :: ds := by
      rw [← List.cons_append, List.drop_length_add_append]
      rfl
    simp only [numeral, htake, hdrop]

/-- What a segment leaves behind, by its kind. -/
theorem yield_cases (before : List Char) {s : Segment} {cs : List Char} (h : Front s cs) :
    (∃ t, s.yield (lineAfter before) = .ok (some t) ∧ TokenOf (before, s) t ∧
      s.isToken ∧ s.isProblem = false) ∨
    (s.yield (lineAfter before) = .ok none ∧ s.isToken = false ∧ s.isProblem = false) ∨
    ∃ e, s.yield (lineAfter before) = .error e ∧ ProblemOf (before, s) e.diagnostic ∧
      s.isToken = false ∧ s.isProblem := by
  have hlast : lineAfter (before ++ s.text) = lineAfter before + lineEnds s.text := by
    simp [lineAfter, lineEnds, Nat.add_assoc]
  cases h with
  | unterminated =>
    refine .inr (.inr ⟨_, rfl, ?_, rfl, rfl⟩)
    simp only [ProblemOf, hlast]
    rfl
  | stray => exact .inr (.inr ⟨_, rfl, rfl, rfl, rfl⟩)
  | longest h =>
    obtain ⟨kind, text⟩ := s
    have hregular := h.regular
    cases kind with
    | word =>
      have hword := ofWord_spec (String.ofList text)
      exact .inl ⟨_, rfl, ⟨rfl, hword.1, hword.2, rfl, rfl⟩, rfl, rfl⟩
    | number =>
      obtain ⟨integral, fraction, hno, htext, hvalue⟩ := numeral_spec hregular
      refine .inl ⟨_, rfl, ⟨rfl, rfl, rfl, integral, fraction, hno, htext, ?_⟩, rfl, rfl⟩
      exact congrArg Value.number hvalue
    | string =>
      cases hregular with
      | @string body _ =>
        refine .inl ⟨_, rfl, ⟨rfl, rfl, ?_, body, rfl, ?_⟩, rfl, rfl⟩
        · rw [hlast]
        · simp [unquoted]
    | operator kind => exact .inl ⟨_, rfl, ⟨rfl, rfl, rfl, rfl⟩, rfl, rfl⟩
    | comment => exact .inr (.inl ⟨rfl, rfl, rfl⟩)
    | blank => exact .inr (.inl ⟨rfl, rfl, rfl⟩)
    | unterminated => cases hregular
    | stray => cases hregular

/-- The tokens and problems of segments that were cut off after the given text. -/
theorem scanSegments_spec {ss : List Segment} {cs : List Char} (h : Cuts ss cs) (before : List Char) :
    ∃ ts, (scanSegments (lineAfter before) ss).tokens =
        ts ++ [⟨.eof, "", .nil, lineAfter (before ++ cs)⟩] ∧
      List.Forall₂ TokenOf ((placed before ss).filter (·.2.isToken)) ts ∧
      List.Forall₂ ProblemOf ((placed before ss).filter (·.2.isProblem))
        (scanSegments (lineAfter before) ss).diagnostics := by
  induction h generalizing before with
  | nil => exact ⟨[], by simp [scanSegments], .nil, .nil⟩
  | @cons s ss rest hfront hrest ih =>
    have hline : lineAfter before + lineEnds s.text = lineAfter (before ++ s.text) := by
      simp [lineAfter, lineEnds, Nat.add_assoc]
    obtain ⟨ts, htokens, htokenOf, hproblemOf⟩ := ih (before ++ s.text)
    simp only [scanSegments, placed, hline, List.filter_cons, ← List.append_assoc] at *
    obtain ⟨t, hyield, ht, htoken, hproblem⟩ | ⟨hyield, htoken, hproblem⟩ |
      ⟨e, hyield, he, htoken, hproblem⟩ := yield_cases before hfront
    · simp only [hyield, htoken, hproblem, if_true]
      exact ⟨t :: ts, by rw [htokens]; rfl, .cons ht htokenOf, hproblemOf⟩
    · simp only [hyield, htoken, hproblem]
      exact ⟨ts, htokens, htokenOf, hproblemOf⟩
    · simp only [hyield, htoken, hproblem, if_true]
      exact ⟨ts, htokens, htokenOf, .cons he hproblemOf⟩

/-- The tokens of a source text, one for each segment that stands for one, and its problems. -/
theorem scan_spec (source : String) :
    ∃ ts, (scan source).tokens = ts ++ [⟨.eof, "", .nil, lineAfter source.toList⟩] ∧
      List.Forall₂ TokenOf ((placed [] (segments source.toList)).filter (·.2.isToken)) ts ∧
      List.Forall₂ ProblemOf ((placed [] (segments source.toList)).filter (·.2.isProblem))
        (scan source).diagnostics :=
  scanSegments_spec (cuts_segments source.toList) []

/-- A token of a source text is the end marker or stands for a segment of the text. -/
theorem mem_scan_tokens {source : String} {t : Token} (h : t ∈ (scan source).tokens) :
    t = ⟨.eof, "", .nil, lineAfter source.toList⟩ ∨
      ∃ p ∈ placed [] (segments source.toList), TokenOf p t := by
  obtain ⟨ts, htokens, htokenOf, -⟩ := scan_spec source
  rw [htokens] at h
  rcases List.mem_append.mp h with hts | hlast
  · right
    clear htokens h
    generalize hps : (placed [] (segments source.toList)).filter (·.2.isToken) = ps at htokenOf
    have hmem : ∀ p ∈ ps, p ∈ placed [] (segments source.toList) := fun p hp =>
      (List.mem_filter.mp (hps ▸ hp)).1
    clear hps
    induction htokenOf with
    | nil => cases hts
    | @cons p u ps us hp _ ih =>
      cases hts with
      | head => exact ⟨p, hmem p (List.mem_cons_self ..), hp⟩
      | tail _ hts => exact ih hts fun q hq => hmem q (List.mem_cons_of_mem p hq)
  · exact .inl (List.mem_singleton.mp hlast)

theorem exists_eof_mem_scan_tokens (source : String) :
    ∃ t ∈ (scan source).tokens, t.kind = .eof := by
  obtain ⟨ts, htokens, -⟩ := scan_spec source
  rw [htokens]
  exact ⟨_, List.mem_append_right ts (List.mem_singleton_self _), rfl⟩

/-- The literal of a token is nil, the number of a numeral or a string. -/
theorem TokenOf.literal_cases {p : List Char × Segment} {t : Token} (h : TokenOf p t) :
    t.literal = .nil ∨ (∃ d : Number.Decimal, t.literal = .number d.toFloat) ∨
      ∃ s : String, t.literal = .string s := by
  obtain ⟨before, kind, text⟩ := p
  cases kind with
  | word => exact .inl h.2.2.2.1
  | number =>
    obtain ⟨-, -, -, integral, fraction, -, -, hliteral⟩ := h
    exact .inr (.inl ⟨_, hliteral⟩)
  | string =>
    obtain ⟨-, -, -, body, -, hliteral⟩ := h
    exact .inr (.inr ⟨_, hliteral⟩)
  | operator kind => exact .inl h.2.2.1
  | _ => exact absurd h.2 id

theorem exists_append_of_mem_placed {before : List Char} {ss : List Segment}
    {p : List Char × Segment} (h : p ∈ placed before ss) :
    ∃ rest, before ++ ss.flatMap (·.text) = p.1 ++ p.2.text ++ rest := by
  induction ss generalizing before with
  | nil => cases h
  | cons s ss ih =>
    rw [List.flatMap_cons, ← List.append_assoc]
    cases h with
    | head => exact ⟨_, rfl⟩
    | tail _ h => exact ih h

theorem lineAfter_le_append (before rest : List Char) :
    lineAfter before ≤ lineAfter (before ++ rest) := by
  unfold lineAfter
  rw [List.count_append]
  omega

theorem TokenOf.line_le {p : List Char × Segment} {t : Token} (h : TokenOf p t) :
    ∃ n : ℕ, t.line = n ∧ n ≤ lineAfter (p.1 ++ p.2.text) := by
  obtain ⟨before, kind, text⟩ := p
  have hle := lineAfter_le_append before text
  cases kind with
  | word => exact ⟨_, h.2.2.2.2, hle⟩
  | number => exact ⟨_, h.2.2.1, hle⟩
  | string => exact ⟨_, h.2.2.1, le_rfl⟩
  | operator kind => exact ⟨_, h.2.2.2, hle⟩
  | _ => exact absurd h.2 id

/-- The lines of tokens are lines of the source text. -/
theorem scan_line_le {source : String} {t : Token} (h : t ∈ (scan source).tokens) :
    ∃ n : ℕ, t.line = n ∧ n ≤ lineAfter source.toList := by
  rcases mem_scan_tokens h with rfl | ⟨p, hp, ht⟩
  · exact ⟨_, rfl, le_rfl⟩
  · obtain ⟨n, hn, hle⟩ := ht.line_le
    obtain ⟨rest, hrest⟩ := exists_append_of_mem_placed hp
    rw [List.nil_append, (cuts_segments source.toList).flatMap_text] at hrest
    rw [hrest]
    exact ⟨n, hn, hle.trans (lineAfter_le_append _ rest)⟩

/-- There is one way to cut a source text. Its segments make up the text, none is empty, and they
leave behind the tokens and the problems of the text, in order. -/
theorem scan_eq_of_unique_cut (source : String) :
    ∃ ss, Cuts ss source.toList ∧ (∀ ss', Cuts ss' source.toList → ss' = ss) ∧
      (∀ s ∈ ss, s.text ≠ []) ∧ ss.flatMap (·.text) = source.toList ∧
      (∃ ts, (scan source).tokens = ts ++ [⟨.eof, "", .nil, lineAfter source.toList⟩] ∧
        List.Forall₂ TokenOf ((placed [] ss).filter (·.2.isToken)) ts) ∧
      List.Forall₂ ProblemOf ((placed [] ss).filter (·.2.isProblem)) (scan source).diagnostics := by
  have hcut := cuts_segments source.toList
  obtain ⟨ts, htokens, htokenOf, hproblemOf⟩ := scan_spec source
  refine ⟨segments source.toList, hcut, ?_, ?_, hcut.flatMap_text, ⟨ts, htokens, htokenOf⟩,
    hproblemOf⟩
  · exact fun ss' hss' => hss'.unique hcut
  · intro s hs
    obtain ⟨cs, hfront⟩ := hcut.front s hs
    exact hfront.text_ne_nil

end LoxLang.Source
