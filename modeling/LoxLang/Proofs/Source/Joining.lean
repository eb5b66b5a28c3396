import LoxLang.Proofs.Source.Segmentation

/-!
Texts joined by a line end. No segment of a text without problems goes on behind a line end, so the
text leaves the same tokens behind as alone, and the text behind the line end leaves the tokens and
problems that it leaves alone, only further down.
-/
namespace LoxLang

/-- The same token a number of lines further down. -/
def Token.down (k : Nat) (t : Token) : Token :=
  { t with line := t.line + k }

def Diagnostic.down (k : Nat) (d : Diagnostic) : Diagnostic :=
  { d with line := d.line + k }

theorem Diagnostic.down_down (k k' : Nat) (d : Diagnostic) :
    (d.down k).down k' = d.down (k' + k) := by
  simp only [down, Diagnostic.mk.injEq, true_and, and_true]
  omega

namespace Source

open Text

def LexicalError.down (k : Nat) (e : LexicalError) : LexicalError :=
  { e with line := e.line + k }

def Scan.down (k : Nat) (s : Scan) : Scan :=
  ⟨s.tokens.map (·.down k), s.errors.map (·.down k)⟩

theorem lineEnds_append (cs ds : List Char) : lineEnds (cs ++ ds) = lineEnds cs + lineEnds ds :=
  List.count_append

theorem segments_cons (c : Char) (cs : List Char) :
    segments (c :: cs) = ⟨(classify c cs).1, c :: cs.take (classify c cs).2⟩ ::
      segments (cs.drop (classify c cs).2) := by
  rw [segments]

/-! Blanks leave nothing behind, wherever a run of them is cut. -/

theorem classify_blank {c : Char} (hc : isBlank c) (cs : List Char) :
    classify c cs = (.blank, (cs.takeWhile isBlank).length) := by
  rw [classify, if_neg (not_startsWord_of_isBlank hc), if_neg (not_isAsciiDigit_of_isBlank hc),
    if_pos hc]

theorem scanSegments_blank {c : Char} (hc : isBlank c) (line : Nat) (cs : List Char) :
    scanSegments line (segments (c :: cs)) = scanSegments (line + lineEnds [c]) (segments cs) := by
  have hfirst : scanSegments line (segments (c :: cs)) =
      scanSegments (line + lineEnds (c :: cs.take (cs.takeWhile isBlank).length))
        (segments (cs.drop (cs.takeWhile isBlank).length)) := by
    rw [segments_cons, classify_blank hc]
    rfl
  rw [hfirst]
  cases cs with
  | nil => rfl
  | cons d ds =>
    by_cases hd : isBlank d
    · have hsecond : scanSegments (line + lineEnds [c]) (segments (d :: ds)) =
          scanSegments (line + lineEnds [c] + lineEnds (d :: ds.take (ds.takeWhile isBlank).length))
            (segments (ds.drop (ds.takeWhile isBlank).length)) := by
        rw [segments_cons, classify_blank hd]
        rfl
      rw [hsecond, List.takeWhile_cons_of_pos hd, List.length_cons, List.take_succ_cons,
        List.drop_succ_cons, Nat.add_assoc, ← lineEnds_append]
      rfl
    · rw [List.takeWhile_cons_of_neg hd]
      rfl

/-! Everything else ends in front of a line end, unless it is a string without an end. -/

end Source

end LoxLang
