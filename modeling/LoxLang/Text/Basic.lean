/-!
Texts.

A text is a row of code points. Mostly they are characters, and the text is whole. The escapes of a
tree file can also name one half of a pair of code units without the other half, which is no
character, and a text with such a half is ragged. It is joined, compared and printed like any other,
but UTF-8 has no bytes for it.
-/
namespace LoxLang

/-- One half of a pair, by its place among the halves. -/
structure Half where
  index : Fin 0x800
deriving DecidableEq, Repr

def Half.code (h : Half) : Nat :=
  0xD800 + h.index

inductive Point where
  | char (c : Char)
  | half (h : Half)
deriving DecidableEq, Repr

namespace Point

def isHalf : Point → Bool
  | .char _ => false
  | .half _ => true

/-- The character that a point is, and a question mark for a half. -/
def toChar : Point → Char
  | .char c => c
  | .half _ => '?'

end Point

/-- A row of code points with a half among them. -/
structure Ragged where
  points : List Point
  isRagged : points.any Point.isHalf
deriving DecidableEq, Repr

inductive Text where
  | whole (s : String)
  | ragged (r : Ragged)
deriving DecidableEq, Repr

namespace Text

instance : Coe String Text := ⟨whole⟩

def points : Text → List Point
  | .whole s => s.toList.map .char
  | .ragged r => r.points

def ofPoints (ps : List Point) : Text :=
  if h : ps.any Point.isHalf then .ragged ⟨ps, h⟩ else .whole (String.ofList (ps.map Point.toChar))

def append : Text → Text → Text
  | .whole s, .whole t => .whole (s ++ t)
  | a, b => ofPoints (a.points ++ b.points)

instance : Append Text := ⟨append⟩

/-- All the texts of a list in a row. -/
def join (ts : List Text) : Text :=
  ts.foldl (· ++ ·) ""

def isWhole : Text → Bool
  | .whole _ => true
  | .ragged _ => false

/-- The characters of a text, with question marks for halves. -/
def chars (t : Text) : List Char :=
  t.points.map Point.toChar

@[simp] theorem whole_beq_whole (s t : String) : (whole s == whole t) = (s == t) := by
  rw [Bool.eq_iff_iff, beq_iff_eq, beq_iff_eq, whole.injEq]

@[simp] theorem whole_append (s t : String) : whole s ++ whole t = whole (s ++ t) := rfl

theorem not_any_isHalf (cs : List Char) : ¬ (cs.map Point.char).any Point.isHalf := by
  induction cs with
  | nil => exact Bool.false_ne_true
  | cons c cs ih => exact ih

@[simp] theorem ofPoints_points (t : Text) : ofPoints t.points = t := by
  cases t with
  | whole s =>
    have hchars : (s.toList.map Point.char).map Point.toChar = s.toList := by
      rw [List.map_map]
      exact List.map_id' s.toList
    rw [points, ofPoints, dif_neg (not_any_isHalf s.toList), hchars, String.ofList_toList]
  | ragged r => exact dif_pos r.isRagged

theorem map_char_toChar {ps : List Point} (h : ¬ ps.any Point.isHalf) :
    (ps.map Point.toChar).map Point.char = ps := by
  induction ps with
  | nil => rfl
  | cons p ps ih =>
    cases p with
    | char c => exact congrArg (Point.char c :: ·) (ih h)
    | half => exact absurd rfl h

@[simp] theorem points_ofPoints (ps : List Point) : (ofPoints ps).points = ps := by
  unfold ofPoints
  split
  · rfl
  · next h => rw [points, String.toList_ofList, map_char_toChar h]

theorem points_inj {a b : Text} : a.points = b.points ↔ a = b := by
  refine ⟨fun h => ?_, congrArg points⟩
  rw [← ofPoints_points a, h, ofPoints_points]

@[simp] theorem points_append (a b : Text) : (a ++ b).points = a.points ++ b.points := by
  cases a with
  | ragged => exact points_ofPoints _
  | whole s =>
    cases b with
    | ragged => exact points_ofPoints _
    | whole t => rw [whole_append, points, points, points, String.toList_append, List.map_append]

theorem append_assoc (a b c : Text) : a ++ b ++ c = a ++ (b ++ c) := by
  simp [← points_inj]

@[simp] theorem append_empty (t : Text) : t ++ whole "" = t := by
  rw [← points_inj, points_append]
  exact List.append_nil t.points

@[simp] theorem empty_append (t : Text) : whole "" ++ t = t := by
  rw [← points_inj, points_append]
  rfl

theorem foldl_append (a : Text) (ts : List Text) : ts.foldl (· ++ ·) a = a ++ join ts := by
  induction ts generalizing a with
  | nil => exact (append_empty a).symm
  | cons t ts ih => rw [join, List.foldl_cons, List.foldl_cons, ih, ih, empty_append, append_assoc]

@[simp] theorem join_nil : join [] = "" := rfl

@[simp] theorem join_cons (t : Text) (ts : List Text) : join (t :: ts) = t ++ join ts := by
  rw [join, List.foldl_cons, empty_append, foldl_append]

@[simp] theorem join_append (ts us : List Text) : join (ts ++ us) = join ts ++ join us := by
  rw [join, List.foldl_append, foldl_append]
  rfl

@[simp] theorem isWhole_whole (s : String) : (whole s).isWhole := rfl

theorem isWhole_iff {t : Text} : t.isWhole ↔ ∃ s : String, t = s := by
  cases t <;> simp [isWhole]

theorem isWhole_eq (t : Text) : t.isWhole = !t.points.any Point.isHalf := by
  cases t with
  | whole s => exact (congrArg (!·) (Bool.eq_false_iff.mpr (not_any_isHalf s.toList))).symm
  | ragged r => exact (congrArg (!·) r.isRagged).symm

/-- Texts in a row are whole if both of them are. -/
@[simp] theorem isWhole_append (a b : Text) : (a ++ b).isWhole = (a.isWhole && b.isWhole) := by
  rw [isWhole_eq, isWhole_eq, isWhole_eq, points_append, List.any_append, Bool.not_or]

end Text

end LoxLang
