import LoxLang.Proofs.Source.Joining

/-!
Lexemes with layout between them.

Behind a lexeme stands a blank, and behind the blank any mix of blanks and comments. No lexeme goes
on over a blank, whatever follows there, so the text leaves behind the tokens of its lexemes and
nothing else.
-/
namespace LoxLang

/-- What a token is, wherever it stands. -/
def Token.content (t : Token) : TokenKind × String × Value :=
  (t.kind, t.lexeme, t.literal)

namespace Source

open Text

/-! The longest terminal in front of a text that does not continue it. -/

theorem continuesWord_chars {c : Char} (h : continuesWord c) : ¬ isBlank c ∧ c ≠ '/' := by
  constructor
  · intro hblank
    have hword := not_startsWord_of_isBlank hblank
    have hdigit := not_isAsciiDigit_of_isBlank hblank
    simp [continuesWord, hword, hdigit] at h
  · rintro rfl
    exact absurd h (by decide)

theorem Regular.number_chars {t : List Char} (h : Regular .number t) :
    ∀ c ∈ t, ¬ isBlank c ∧ c ≠ '/' := by
  have hdigit {c : Char} (hc : isAsciiDigit c) : ¬ isBlank c ∧ c ≠ '/' :=
    continuesWord_chars (by simp [continuesWord, hc])
  intro c hc
  cases h with
  | whole hd hds =>
    obtain rfl | hc := List.mem_cons.mp hc
    · exact hdigit hd
    · exact hdigit (hds c hc)
  | fraction hd hds he hes =>
    simp only [List.mem_cons, List.mem_append] at hc
    obtain rfl | hc | rfl | rfl | hc := hc
    · exact hdigit hd
    · exact hdigit (hds c hc)
    · decide
    · exact hdigit he
    · exact hdigit (hes c hc)

theorem operator_chars {kind : TokenKind} {t : List Char} (h : (t, kind) ∈ operatorTexts) :
    ∀ c ∈ t, ¬ isBlank c := by
  have hall : operatorTexts.all fun o => o.1.all fun c => !isBlank c := by decide
  intro c hc
  simpa using List.all_eq_true.mp (List.all_eq_true.mp hall _ h) c hc

/-- An operator with a slash in it is the slash. -/
theorem operator_slash {kind : TokenKind} {t : List Char} (h : (t, kind) ∈ operatorTexts)
    (ht : '/' ∈ t) : t = ['/'] := by
  have hall : operatorTexts.all fun o => o.1.all fun c => c != '/' || o.1 == ['/'] := by decide
  simpa using List.all_eq_true.mp (List.all_eq_true.mp hall _ h) _ ht

/-- A regular terminal that nothing behind it continues is the longest one. -/
theorem Regular.longest_append {k : SegmentKind} {t rest : List Char} (h : Regular k t)
    (hrest : ∀ k' v, v ≠ [] → v <+: rest → ¬ Regular k' (t ++ v)) : Longest ⟨k, t⟩ (t ++ rest) := by
  refine ⟨h, List.prefix_append t rest, ?_⟩
  intro k' u hu hbeginning
  by_contra hlonger
  have hlength : t.length < u.length := by
    simpa using hlonger
  obtain ⟨v, rfl⟩ :=
    List.prefix_of_prefix_length_le (List.prefix_append t rest) hbeginning hlength.le
  have hv : v ≠ [] := by
    rintro rfl
    simp at hlength
  exact hrest k' v hv ((List.prefix_append_right_inj t).mp hbeginning) hu

/-- No string goes on behind its closing quote. -/
theorem Regular.string_append {k : SegmentKind} {cs v : List Char}
    (h : Regular k ('"' :: (cs ++ ['"'] ++ v))) : v = [] := by
  cases h.kind_of_quote
  generalize htext : '"' :: (cs ++ ['"'] ++ v) = text at h
  cases h with
  | @string body hbody =>
    have hsame : cs ++ ['"'] ++ v = body ++ ['"'] := (List.cons.inj htext).2
    obtain rfl | ⟨v', c, rfl⟩ := List.eq_nil_or_concat v
    · rfl
    · rw [List.concat_eq_append, ← List.append_assoc] at hsame
      have hinner : cs ++ ['"'] ++ v' = body := (List.append_inj' hsame rfl).1
      rw [← hinner] at hbody
      exact absurd (by simp) hbody

/-- A beginning of what may stand behind a lexeme that makes it a longer terminal. It holds no
blank, and only a slash is made longer by a slash. -/
structure Continuation (t v : List Char) : Prop where
  ne_nil : v ≠ []
  regular : ∃ k, Regular k (t ++ v)
  not_isBlank : ∀ c ∈ v, ¬ isBlank c
  slash : v.head? = some '/' → t = ['/']

/-- Whatever makes a lexeme longer begins with a continuation. -/
theorem Regular.continued {k k' : SegmentKind} {t v : List Char} (h : Regular k t)
    (hk : (Segment.mk k t).isToken) (h' : Regular k' (t ++ v)) (hv : v ≠ []) :
    ∃ v₀, v₀ <+: v ∧ Continuation t v₀ := by
  have hwhole (hchars : ∀ c ∈ v, ¬ isBlank c ∧ c ≠ '/') : ∃ v₀, v₀ <+: v ∧ Continuation t v₀ := by
    refine ⟨v, List.prefix_refl v, hv, ⟨k', h'⟩, fun c hc => (hchars c hc).1, ?_⟩
    intro hslash
    exact absurd rfl (hchars _ (List.mem_of_head? hslash)).2
  cases h with
  | @word c cs hc hcs =>
    apply hwhole
    cases h'.kind_of_startsWord hc
    rw [List.cons_append] at h'
    cases h' with
    | word _ hall => exact fun d hd => continuesWord_chars (hall d (List.mem_append_right cs hd))
  | whole hc =>
    apply hwhole
    cases h'.kind_of_isAsciiDigit hc
    exact fun d hd => h'.number_chars d (List.mem_append_right _ hd)
  | fraction hc =>
    apply hwhole
    cases h'.kind_of_isAsciiDigit hc
    exact fun d hd => h'.number_chars d (List.mem_append_right _ hd)
  | string => exact absurd h'.string_append hv
  | comment => cases hk
  | blank => cases hk
  | operator ho =>
    obtain ⟨c, cs, rfl⟩ := List.exists_cons_of_ne_nil (Regular.operator ho).ne_nil
    by_cases hcomment : c = '/' ∧ (cs ++ v).head? = some '/'
    · -- the continuation may be long, but its first slash is enough
      obtain ⟨rfl, hslash⟩ := hcomment
      obtain rfl : cs = [] := (List.cons.inj (operator_slash ho List.mem_cons_self)).2
      obtain ⟨v', rfl⟩ := List.head?_eq_some_iff.mp hslash
      have hblank : ∀ c ∈ ['/'], ¬ isBlank c := List.forall_mem_singleton.mpr (by decide)
      exact ⟨['/'], by simp, by simp, ⟨.comment, .comment (by simp)⟩, hblank, fun _ => rfl⟩
    · obtain ⟨hw, hd, hb, hq⟩ := operator_first ho
      obtain ⟨kind', ho'⟩ := Regular.operator_of_first h' hw hd hb hq hcomment
      apply hwhole
      intro d hd
      constructor
      · exact operator_chars ho' d (List.mem_cons_of_mem c (List.mem_append_right cs hd))
      · rintro rfl
        have hmem : '/' ∈ c :: (cs ++ v) := List.mem_cons_of_mem c (List.mem_append_right cs hd)
        have hnil : cs ++ v = [] := (List.cons.inj (operator_slash ho' hmem)).2
        exact absurd (List.append_eq_nil_iff.mp hnil).2 hv

/-- A word, a number, a string or an operator, and the whole of it. -/
structure Segment.IsLexeme (s : Segment) : Prop where
  isToken : s.isToken
  regular : Regular s.kind s.text

/-- A lexeme is cut off as it is where the text behind it does not continue it. -/
theorem Segment.IsLexeme.front {s : Segment} (h : s.IsLexeme) {rest : List Char}
    (hrest : ∀ v, v <+: rest → ¬ Continuation s.text v) : Front s (s.text ++ rest) := by
  apply Front.longest
  apply h.regular.longest_append
  intro k v hv hbeginning hlonger
  obtain ⟨v₀, hshorter, hcontinuation⟩ := h.regular.continued h.isToken hlonger hv
  exact hrest v₀ (hshorter.trans hbeginning) hcontinuation

/-- A comment ends with its line or with the text. -/
theorem front_comment {ds rest : List Char} (hds : '\n' ∉ ds)
    (hrest : ∀ c, rest.head? = some c → c = '\n') :
    Front ⟨.comment, '/' :: '/' :: ds⟩ ('/' :: '/' :: ds ++ rest) := by
  apply Front.longest
  apply (Regular.comment hds).longest_append
  intro k v hv hbeginning hlonger
  obtain ⟨c, v, rfl⟩ := List.exists_cons_of_ne_nil hv
  have hc : c = '\n' := hrest c (head?_of_beginning hbeginning rfl)
  cases hlonger.kind_of_slashes rfl
  cases hlonger with
  | comment hno => exact hno (by simp [hc])

theorem segments_of_front {s : Segment} {rest : List Char} (h : Front s (s.text ++ rest)) :
    segments (s.text ++ rest) = s :: segments rest :=
  (cuts_segments _).unique (.cons h (cuts_segments rest))

/-! Texts that show lexemes. -/

/-- Blanks and comments in any order, each comment with the end of its line. -/
inductive Layout : List Char → Prop where
  | nil : Layout []
  | blank {c : Char} {cs : List Char} (hc : isBlank c) (h : Layout cs) : Layout (c :: cs)
  | comment {ds cs : List Char} (hds : '\n' ∉ ds) (h : Layout cs) :
      Layout ('/' :: '/' :: ds ++ '\n' :: cs)

/-- What keeps two lexemes apart: a blank, and then any layout. -/
inductive Separator : List Char → Prop where
  | mk {c : Char} {cs : List Char} (hc : isBlank c) (h : Layout cs) : Separator (c :: cs)

/-- Nothing, or a comment whose line is not ended. -/
inductive LastComment : List Char → Prop where
  | none : LastComment []
  | some {ds : List Char} (hds : '\n' ∉ ds) : LastComment ('/' :: '/' :: ds)

/-- The text behind a lexeme shows the further lexemes. Behind the last one stands nothing, or
layout that begins with a blank and may end in a comment, or unless it is a slash a comment at
once. -/
inductive RendersBehind : Segment → List Segment → List Char → Prop where
  | nil {s : Segment} : RendersBehind s [] []
  | layout {s : Segment} {gap tail : List Char} (hgap : Separator gap) (htail : LastComment tail) :
      RendersBehind s [] (gap ++ tail)
  | comment {s : Segment} {ds : List Char} (hs : s.text ≠ ['/']) (hds : '\n' ∉ ds) :
      RendersBehind s [] ('/' :: '/' :: ds)
  | cons {s t : Segment} {ss : List Segment} {gap rest : List Char} (hgap : Separator gap)
      (ht : t.IsLexeme) (h : RendersBehind t ss rest) :
      RendersBehind s (t :: ss) (gap ++ (t.text ++ rest))

/-- The text shows the lexemes, in order and each of them apart from the next. -/
inductive Renders : List Segment → List Char → Prop where
  | nil {lead tail : List Char} (hlead : Layout lead) (htail : LastComment tail) :
      Renders [] (lead ++ tail)
  | cons {s : Segment} {ss : List Segment} {lead rest : List Char} (hlead : Layout lead)
      (hs : s.IsLexeme) (h : RendersBehind s ss rest) : Renders (s :: ss) (lead ++ (s.text ++ rest))

/-- The token has the kind, the text and the literal that the lexeme calls for. -/
def Segment.Denotes (s : Segment) (t : Token) : Prop :=
  ∃ before, TokenOf (before, s) t

/-- The text leaves behind a token for each of the lexemes and an end marker, and no problem. -/
def Leaves (ss : List Segment) (cs : List Char) : Prop :=
  ∀ before, ∃ ts, List.Forall₂ Segment.Denotes ss ts ∧
    scanSegments (lineAfter before) (segments cs) =
      ⟨ts ++ [⟨.eof, "", .nil, lineAfter (before ++ cs)⟩], []⟩

theorem lineAfter_append (before cs : List Char) :
    lineAfter (before ++ cs) = lineAfter before + lineEnds cs := by
  simp [lineAfter, lineEnds, Nat.add_assoc]

theorem leaves_nil : Leaves [] [] := by
  intro before
  have hempty : segments [] = [] := by rw [segments]
  refine ⟨[], .nil, ?_⟩
  rw [hempty, List.append_nil]
  rfl

variable {ss : List Segment} {rest : List Char}

theorem Leaves.blank {c : Char} (hc : isBlank c) (h : Leaves ss rest) : Leaves ss (c :: rest) := by
  intro before
  obtain ⟨ts, hts, hscan⟩ := h (before ++ [c])
  refine ⟨ts, hts, ?_⟩
  rw [scanSegments_blank hc, ← lineAfter_append, hscan, List.append_assoc, List.singleton_append]

theorem Leaves.comment {ds : List Char} (hds : '\n' ∉ ds)
    (hrest : ∀ c, rest.head? = some c → c = '\n') (h : Leaves ss rest) :
    Leaves ss ('/' :: '/' :: ds ++ rest) := by
  intro before
  obtain ⟨ts, hts, hscan⟩ := h (before ++ '/' :: '/' :: ds)
  have hsegments := segments_of_front (front_comment hds hrest)
  refine ⟨ts, hts, ?_⟩
  rw [hsegments, scanSegments, ← lineAfter_append, hscan, List.append_assoc]
  rfl

theorem Leaves.layout {lead : List Char} (hlead : Layout lead) (h : Leaves ss rest) :
    Leaves ss (lead ++ rest) := by
  induction hlead with
  | nil => exact h
  | blank hc _ ih => exact ih.blank hc
  | @comment ds cs hds _ ih =>
    have hline : Leaves ss ('\n' :: (cs ++ rest)) := ih.blank (by decide)
    have hcomment := hline.comment hds (by simp)
    simpa using hcomment

theorem Leaves.separator {gap : List Char} (hgap : Separator gap) (h : Leaves ss rest) :
    Leaves ss (gap ++ rest) := by
  cases hgap with
  | mk hc hlayout => exact (h.layout hlayout).blank hc

theorem leaves_lastComment {tail : List Char} (h : LastComment tail) : Leaves [] tail := by
  cases h with
  | none => exact leaves_nil
  | @some ds hds =>
    have hcomment := leaves_nil.comment hds (by simp)
    rwa [List.append_nil] at hcomment

theorem Leaves.lexeme {s : Segment} (hs : s.IsLexeme) (hfront : Front s (s.text ++ rest))
    (h : Leaves ss rest) : Leaves (s :: ss) (s.text ++ rest) := by
  intro before
  obtain ⟨ts, hts, hscan⟩ := h (before ++ s.text)
  obtain ⟨t, hyield, ht, -, -⟩ | ⟨-, hno, -⟩ | ⟨-, -, -, hno, -⟩ := yield_cases before hfront
  · refine ⟨t :: ts, .cons ⟨before, ht⟩ hts, ?_⟩
    rw [segments_of_front hfront, scanSegments, ← lineAfter_append, hscan, hyield,
      List.append_assoc]
    rfl
  · exact absurd hs.isToken (by simp [hno])
  · exact absurd hs.isToken (by simp [hno])

/-- A blank ends every lexeme. -/
theorem Segment.IsLexeme.front_separator {s : Segment} (hs : s.IsLexeme) {gap : List Char}
    (hgap : Separator gap) : Front s (s.text ++ (gap ++ rest)) := by
  apply hs.front
  intro v hbeginning hcontinuation
  obtain ⟨d, v, rfl⟩ := List.exists_cons_of_ne_nil hcontinuation.ne_nil
  cases hgap with
  | mk hc =>
    obtain ⟨rfl, -⟩ := List.cons_prefix_cons.mp hbeginning
    exact hcontinuation.not_isBlank d List.mem_cons_self hc

theorem Segment.IsLexeme.front_nil {s : Segment} (hs : s.IsLexeme) : Front s (s.text ++ []) :=
  hs.front fun _ hbeginning hcontinuation => hcontinuation.ne_nil (List.prefix_nil.mp hbeginning)

theorem Segment.IsLexeme.front_comment {s : Segment} (hs : s.IsLexeme) (hslash : s.text ≠ ['/'])
    (ds : List Char) : Front s (s.text ++ '/' :: '/' :: ds) := by
  apply hs.front
  intro v hbeginning hcontinuation
  obtain ⟨c, v, rfl⟩ := List.exists_cons_of_ne_nil hcontinuation.ne_nil
  obtain ⟨rfl, -⟩ := List.cons_prefix_cons.mp hbeginning
  exact hslash (hcontinuation.slash rfl)

theorem RendersBehind.leaves {s : Segment} (h : RendersBehind s ss rest) (hs : s.IsLexeme) :
    Leaves (s :: ss) (s.text ++ rest) := by
  induction h with
  | nil => exact leaves_nil.lexeme hs hs.front_nil
  | layout hgap htail =>
    have hlast := (leaves_lastComment htail).separator hgap
    exact hlast.lexeme hs (hs.front_separator hgap)
  | comment hslash hds =>
    have hlast := leaves_lastComment (.some hds)
    exact hlast.lexeme hs (hs.front_comment hslash _)
  | cons hgap ht _ ih =>
    have hlater := (ih ht).separator hgap
    exact hlater.lexeme hs (hs.front_separator hgap)

theorem Renders.leaves {cs : List Char} (h : Renders ss cs) : Leaves ss cs := by
  cases h with
  | nil hlead htail => exact (leaves_lastComment htail).layout hlead
  | cons hlead hs h => exact (h.leaves hs).layout hlead

/-! The lexemes of a scanned text. -/

/-- The number of a numeral does not depend on how the numeral is taken apart. -/
theorem numeral_of_split {text integral fraction : List Char} (hno : '.' ∉ integral)
    (h : text = integral ∧ fraction = [] ∨ text = integral ++ '.' :: fraction) :
    numeral text =
      (Number.Decimal.mk (ofDigits 0 (integral ++ fraction)) (-(fraction.length : Int))).toFloat := by
  have hall : ∀ c ∈ integral, (c != '.') = true :=
    fun c hc => bne_iff_ne.mpr fun hp => hno (hp ▸ hc)
  have htake : text.takeWhile (· != '.') = integral := by
    obtain ⟨rfl, -⟩ | rfl := h
    · exact List.takeWhile_eq_self_iff.mpr hall
    · rw [List.takeWhile_append_of_pos hall, List.takeWhile_cons_of_neg (by decide), List.append_nil]
  have hdrop : text.drop (integral.length + 1) = fraction := by
    obtain ⟨rfl, rfl⟩ | rfl := h
    · exact List.drop_eq_nil_of_le (by omega)
    · rw [List.drop_length_add_append]
      rfl
  simp only [numeral, htake, hdrop]

/-- The kind of a word is determined by its text. -/
theorem kind_of_word {word : String} {k k' : TokenKind}
    (h : (∀ r, (word, r) ∈ TokenKind.keywords → k = r) ∧
      ((∀ r, (word, r) ∉ TokenKind.keywords) → k = .identifier))
    (h' : (∀ r, (word, r) ∈ TokenKind.keywords → k' = r) ∧
      ((∀ r, (word, r) ∉ TokenKind.keywords) → k' = .identifier)) : k = k' := by
  by_cases hreserved : ∃ r, (word, r) ∈ TokenKind.keywords
  · obtain ⟨r, hr⟩ := hreserved
    rw [h.1 r hr, h'.1 r hr]
  · have hnone : ∀ r, (word, r) ∉ TokenKind.keywords := fun r hr => hreserved ⟨r, hr⟩
    rw [h.2 hnone, h'.2 hnone]

theorem Segment.Denotes.content_eq {s : Segment} {t t' : Token} (h : s.Denotes t)
    (h' : s.Denotes t') : t.content = t'.content := by
  obtain ⟨before, hlexeme, hspec⟩ := h
  obtain ⟨before', hlexeme', hspec'⟩ := h'
  have hsame : t.lexeme = t'.lexeme := hlexeme.trans hlexeme'.symm
  obtain ⟨kind, text⟩ := s
  unfold Token.content
  cases kind with
  | word =>
    obtain ⟨hreserved, hother, hliteral, -⟩ := hspec
    obtain ⟨hreserved', hother', hliteral', -⟩ := hspec'
    rw [← hsame] at hreserved' hother'
    rw [kind_of_word ⟨hreserved, hother⟩ ⟨hreserved', hother'⟩, hsame, hliteral, hliteral']
  | number =>
    obtain ⟨hkind, -, integral, fraction, hno, hsplit, hliteral⟩ := hspec
    obtain ⟨hkind', -, integral', fraction', hno', hsplit', hliteral'⟩ := hspec'
    rw [← numeral_of_split hno hsplit] at hliteral
    rw [← numeral_of_split hno' hsplit'] at hliteral'
    rw [hkind, hkind', hsame, hliteral, hliteral']
  | string =>
    obtain ⟨hkind, -, body, hbody, hliteral⟩ := hspec
    obtain ⟨hkind', -, body', hbody', hliteral'⟩ := hspec'
    have hbodies : body = body' := by simpa using hbody.symm.trans hbody'
    rw [hkind, hkind', hsame, hliteral, hliteral', hbodies]
  | operator kind =>
    obtain ⟨hkind, hliteral, -⟩ := hspec
    obtain ⟨hkind', hliteral', -⟩ := hspec'
    rw [hkind, hkind', hsame, hliteral, hliteral']
  | _ => exact absurd hspec id

theorem contents_eq {ts ts' : List Token} (h : List.Forall₂ Segment.Denotes ss ts)
    (h' : List.Forall₂ Segment.Denotes ss ts') : ts.map Token.content = ts'.map Token.content := by
  induction h generalizing ts' with
  | nil =>
    cases h'
    rfl
  | cons ht _ ih =>
    cases h' with
    | cons ht' h' => rw [List.map_cons, List.map_cons, ht.content_eq ht', ih h']

theorem mem_of_mem_placed {before : List Char} {p : List Char × Segment}
    (h : p ∈ placed before ss) : p.2 ∈ ss := by
  induction ss generalizing before with
  | nil => cases h
  | cons s ss ih =>
    cases h with
    | head => exact List.mem_cons_self
    | tail _ h => exact List.mem_cons_of_mem s (ih h)

theorem Front.isLexeme {s : Segment} {cs : List Char} (h : Front s cs) (htoken : s.isToken) :
    s.IsLexeme := by
  cases h with
  | longest h => exact ⟨htoken, h.regular⟩
  | unterminated => cases htoken
  | stray => cases htoken

/-- The tokens of a source text in front of its end marker stand for lexemes. -/
theorem scan_lexemes (source : String) :
    ∃ ss ts, (scan source).tokens = ts ++ [⟨.eof, "", .nil, lineAfter source.toList⟩] ∧
      (∀ s ∈ ss, s.IsLexeme) ∧ List.Forall₂ Segment.Denotes ss ts := by
  obtain ⟨ts, htokens, htokenOf, -⟩ := scan_spec source
  refine ⟨((placed [] (segments source.toList)).filter (·.2.isToken)).map (·.2), ts, htokens, ?_, ?_⟩
  · intro s hs
    obtain ⟨p, hp, rfl⟩ := List.mem_map.mp hs
    obtain ⟨hplaced, htoken⟩ := List.mem_filter.mp hp
    obtain ⟨cs, hfront⟩ := (cuts_segments source.toList).front p.2 (mem_of_mem_placed hplaced)
    exact hfront.isLexeme htoken
  · rw [List.forall₂_map_left_iff]
    exact htokenOf.imp fun p t ht => ⟨p.1, ht⟩

theorem texts_of_denotes {ts : List Token} (h : List.Forall₂ Segment.Denotes ss ts) :
    ts.map (·.lexeme.toList) = ss.map (·.text) := by
  induction h with
  | nil => rfl
  | cons ht _ ih =>
    obtain ⟨before, hlexeme, -⟩ := ht
    rw [List.map_cons, List.map_cons, ih, hlexeme, String.toList_ofList]

/-- Lexemes joined by single spaces, with one more space at the end if there is an empty text
behind them. -/
theorem rendersBehind_spaced {last : List (List Char)} (hlast : last = [] ∨ last = [[]])
    (hss : ∀ s ∈ ss, s.IsLexeme) (s : Segment) :
    ∃ rest, RendersBehind s ss rest ∧
      [' '].intercalate (s.text :: (ss.map (·.text) ++ last)) = s.text ++ rest := by
  have hspace : Separator [' '] := .mk (by decide) .nil
  induction ss generalizing s with
  | nil =>
    obtain rfl | rfl := hlast
    · exact ⟨[], .nil, by simp⟩
    · exact ⟨[' '] ++ [], .layout hspace .none, by simp⟩
  | cons t ss ih =>
    obtain ⟨ht, hss⟩ := List.forall_mem_cons.mp hss
    obtain ⟨rest, hrest, hjoined⟩ := ih hss t
    refine ⟨[' '] ++ (t.text ++ rest), .cons hspace ht hrest, ?_⟩
    rw [List.map_cons, List.cons_append, List.intercalate_cons_cons, hjoined, List.append_assoc]

theorem renders_spaced {last : List (List Char)} (hlast : last = [] ∨ last = [[]])
    (hss : ∀ s ∈ ss, s.IsLexeme) : Renders ss ([' '].intercalate (ss.map (·.text) ++ last)) := by
  cases ss with
  | nil => obtain rfl | rfl := hlast <;> exact .nil .nil .none
  | cons s ss =>
    obtain ⟨hs, hss⟩ := List.forall_mem_cons.mp hss
    obtain ⟨rest, hrest, hjoined⟩ := rendersBehind_spaced hlast hss s
    rw [List.map_cons, List.cons_append, hjoined]
    exact .cons .nil hs hrest

theorem scan_of_renders {source : String} (h : Renders ss source.toList) :
    (scan source).errors = [] ∧
    ∃ ts, (scan source).tokens = ts ++ [⟨.eof, "", .nil, lineAfter source.toList⟩] ∧
      List.Forall₂ Segment.Denotes ss ts := by
  obtain ⟨ts, hts, hscan⟩ := h.leaves []
  have hsource : scan source = ⟨ts ++ [⟨.eof, "", .nil, lineAfter source.toList⟩], []⟩ := hscan
  rw [hsource]
  exact ⟨rfl, ts, rfl, hts⟩

/-- Scanning a text that shows lexemes finds no problem and gives back one token for each of them,
and an end marker. So the lexemes of any source text, joined by single spaces, are scanned as the
tokens that they are in the source text; whether the empty lexeme of the end marker is joined with
them makes no difference. -/
theorem scan_undoes_rendering :
    (∀ (ss : List Segment) (source : String), Renders ss source.toList →
      (scan source).errors = [] ∧
      ∃ ts, (scan source).tokens = ts ++ [⟨.eof, "", .nil, lineAfter source.toList⟩] ∧
        List.Forall₂ Segment.Denotes ss ts) ∧
    ∀ (source : String) (lexemes : List String),
      lexemes = (scan source).tokens.map (·.lexeme) ∨
        lexemes = (scan source).tokens.dropLast.map (·.lexeme) →
      (scan (" ".intercalate lexemes)).errors = [] ∧
      (scan (" ".intercalate lexemes)).tokens.map Token.content =
        (scan source).tokens.map Token.content := by
  refine ⟨fun ss source => scan_of_renders, ?_⟩
  intro source lexemes hlexemes
  obtain ⟨ss, ts, htokens, hss, hts⟩ := scan_lexemes source
  have htexts : ∃ last, (last = [] ∨ last = [[]]) ∧
      lexemes.map String.toList = ss.map (·.text) ++ last := by
    rw [← texts_of_denotes hts]
    rw [htokens] at hlexemes
    obtain rfl | rfl := hlexemes
    · exact ⟨[[]], .inr rfl, by simp⟩
    · exact ⟨[], .inl rfl, by simp⟩
  obtain ⟨last, hlast, htexts⟩ := htexts
  have hrenders : Renders ss (" ".intercalate lexemes).toList := by
    rw [String.toList_intercalate, htexts]
    exact renders_spaced hlast hss
  obtain ⟨herrors, ts', htokens', hts'⟩ := scan_of_renders hrenders
  refine ⟨herrors, ?_⟩
  rw [htokens, htokens', List.map_append, List.map_append, contents_eq hts' hts]
  rfl

/-- A slash in front of a comment with a quote, a string with slashes, and a word that begins like a
reserved one. -/
private def slashes : List Segment :=
  [⟨.operator .slash, ['/']⟩, ⟨.string, ['"', '/', '/', '\n', '"']⟩, ⟨.word, ['o', 'r', 'e']⟩,
   ⟨.number, ['1', '.', '0']⟩]

theorem scan_undoes_rendering_slashes :
    Renders slashes "//\"\n/ //\"\n\"//\n\"\u00a0ore\t\n1.0//".toList ∧
    (scan "//\"\n/ //\"\n\"//\n\"\u00a0ore\t\n1.0//").errors = [] ∧
    (∃ ts, (scan "//\"\n/ //\"\n\"//\n\"\u00a0ore\t\n1.0//").tokens =
        ts ++ [⟨.eof, "", .nil, 5⟩] ∧ List.Forall₂ Segment.Denotes slashes ts) ∧
    (scan (" ".intercalate ((scan "1.a#/\"").tokens.map (·.lexeme)))).errors = [] ∧
    (scan (" ".intercalate ((scan "1.a#/\"").tokens.map (·.lexeme)))).tokens.map Token.content =
      (scan "1.a#/\"").tokens.map Token.content := by
  have hcomment : Layout ['/', '/', '"', '\n'] := @Layout.comment ['"'] [] (by decide) .nil
  have htext : "//\"\n/ //\"\n\"//\n\"\u00a0ore\t\n1.0//".toList = ['/', '/', '"', '\n'] ++ (['/'] ++
      (([' '] ++ ['/', '/', '"', '\n']) ++ (['"', '/', '/', '\n', '"'] ++ (['\u00a0'] ++
        (['o', 'r', 'e'] ++ (['\t', '\n'] ++ (['1', '.', '0'] ++ ['/', '/']))))))) := by decide
  have hrenders : Renders slashes "//\"\n/ //\"\n\"//\n\"\u00a0ore\t\n1.0//".toList := by
    rw [htext]
    refine .cons hcomment ⟨rfl, .operator (by decide)⟩ ?_
    refine .cons (.mk (by decide) hcomment) ⟨rfl, @Regular.string ['/', '/', '\n'] (by decide)⟩ ?_
    refine .cons (.mk (by decide) .nil) ⟨rfl, .word (by decide) (List.all_eq_true.mp (by decide))⟩ ?_
    refine .cons (.mk (by decide) (.blank (by decide) .nil)) ⟨rfl, ?_⟩ (.comment (by decide) (by decide))
    exact @Regular.fraction '1' '0' [] [] (by decide) (by simp) (by decide) (by simp)
  obtain ⟨hrendered, hspaced⟩ := scan_undoes_rendering
  exact ⟨hrenders, (hrendered _ _ hrenders).1, (hrendered _ _ hrenders).2, hspaced _ _ (.inl rfl)⟩

end Source

end LoxLang
