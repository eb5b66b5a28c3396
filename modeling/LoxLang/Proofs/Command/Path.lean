import Mathlib.Data.List.Basic
import Mathlib.Tactic.Set
import Mathlib.Tactic.SplitIfs
import LoxLang.Command.Path

/-! A path is read back from its text, also after the last name was lengthened. -/
namespace LoxLang.Command.Path

theorem pieces_ne_nil (cs : List Char) : pieces cs ≠ [] := by
  cases cs with
  | nil => exact List.cons_ne_nil _ _
  | cons c cs =>
    rw [pieces]
    split_ifs
    · exact List.cons_ne_nil _ _
    · split
      · exact List.cons_ne_nil _ _
      · exact List.cons_ne_nil _ _

theorem slash_not_mem_pieces {cs piece : List Char} (h : piece ∈ pieces cs) : '/' ∉ piece := by
  induction cs generalizing piece with
  | nil =>
    obtain rfl := List.mem_singleton.mp h
    exact List.not_mem_nil
  | cons c cs ih =>
    rw [pieces] at h
    split_ifs at h with hc
    · rcases List.mem_cons.mp h with rfl | h
      · exact List.not_mem_nil
      · exact ih h
    · obtain ⟨first, rest, hpieces⟩ := List.exists_cons_of_ne_nil (pieces_ne_nil cs)
      rw [hpieces] at h ih
      rcases List.mem_cons.mp h with rfl | h
      · rw [List.mem_cons, not_or]
        exact ⟨Ne.symm hc, ih List.mem_cons_self⟩
      · exact ih (List.mem_cons_of_mem _ h)

theorem pieces_append {name : List Char} (h : '/' ∉ name) (rest : List Char) :
    pieces (name ++ '/' :: rest) = name :: pieces rest := by
  induction name with
  | nil => rw [List.nil_append, pieces, if_pos rfl]
  | cons c name ih =>
    rw [List.mem_cons, not_or] at h
    rw [List.cons_append, pieces, if_neg (Ne.symm h.1), ih h.2]

theorem pieces_of_not_mem {name : List Char} (h : '/' ∉ name) : pieces name = [name] := by
  induction name with
  | nil => rfl
  | cons c name ih =>
    rw [List.mem_cons, not_or] at h
    rw [pieces, if_neg (Ne.symm h.1), ih h.2]

theorem pieces_intercalate {names : List (List Char)} (hne : names ≠ [])
    (h : ∀ name ∈ names, '/' ∉ name) : pieces (['/'].intercalate names) = names := by
  induction names with
  | nil => exact absurd rfl hne
  | cons name names ih =>
    have hname := h name List.mem_cons_self
    cases names with
    | nil => rw [List.intercalate_singleton, pieces_of_not_mem hname]
    | cons other names =>
      rw [List.intercalate_cons_cons, List.append_assoc, List.singleton_append,
        pieces_append hname, ih (List.cons_ne_nil _ _) fun n hn => h n (List.mem_cons_of_mem _ hn)]

/-- A name that counts: neither empty nor a single point, and without slashes. -/
def IsName (name : List Char) : Prop :=
  name ≠ [] ∧ name ≠ ['.'] ∧ '/' ∉ name

theorem isName_of_mem_ofText {text : String} {name : List Char} (h : name ∈ (ofText text).names) :
    IsName name := by
  obtain ⟨hpiece, hcounts⟩ := List.mem_filter.mp h
  rw [decide_eq_true_eq] at hcounts
  exact ⟨hcounts.1, hcounts.2, slash_not_mem_pieces hpiece⟩

theorem text_of_ne_nil {p : Path} (hne : p.names ≠ []) :
    p.text = String.ofList (p.root ++ ['/'].intercalate p.names) := by
  unfold text
  split
  · next hnames => exact absurd hnames hne
  · rfl

theorem head_intercalate_ne {names : List (List Char)} (hne : names ≠ [])
    (h : ∀ name ∈ names, IsName name) : (['/'].intercalate names).head? ≠ some '/' := by
  obtain ⟨name, rest, rfl⟩ := List.exists_cons_of_ne_nil hne
  obtain ⟨hname, -, hslash⟩ := h name List.mem_cons_self
  obtain ⟨c, cs, rfl⟩ := List.exists_cons_of_ne_nil hname
  intro hhead
  cases rest with
  | nil =>
    rw [List.intercalate_singleton] at hhead
    exact hslash (List.mem_of_mem_head? hhead)
  | cons other rest =>
    rw [List.intercalate_cons_cons, List.append_assoc, List.cons_append] at hhead
    obtain rfl := Option.some.inj hhead
    exact hslash List.mem_cons_self

theorem pieces_slashes (n : ℕ) (cs : List Char) :
    pieces (List.replicate n '/' ++ cs) = List.replicate n [] ++ pieces cs := by
  induction n with
  | zero => rfl
  | succ n ih =>
    rw [List.replicate_succ, List.cons_append, pieces, if_pos rfl, ih]
    rfl

/-- The slashes that a path may start with. -/
def IsRoot (root : List Char) : Prop :=
  ∃ n ≤ 2, root = List.replicate n '/'

theorem isRoot_ofText (text : String) : IsRoot (ofText text).root := by
  set slashes := text.toList.takeWhile (· == '/') with hslashes
  have hall : slashes = List.replicate slashes.length '/' := by
    apply List.eq_replicate_of_mem
    intro c hc
    simpa using List.all_eq_true.mp List.all_takeWhile c hc
  change IsRoot (if 2 < slashes.length then ['/'] else slashes)
  split_ifs with hlong
  · exact ⟨1, by decide, rfl⟩
  · exact ⟨slashes.length, Nat.not_lt.mp hlong, hall⟩

theorem takeWhile_slashes {cs : List Char} (n : ℕ) (h : cs.head? ≠ some '/') :
    (List.replicate n '/' ++ cs).takeWhile (· == '/') = List.replicate n '/' := by
  have hstop : cs.takeWhile (· == '/') = [] := by
    cases cs with
    | nil => rfl
    | cons c cs =>
      have hc : c ≠ '/' := fun hc => h (congrArg some hc)
      simp [hc]
  rw [List.takeWhile_append_of_pos, hstop, List.append_nil]
  intro c hc
  simpa using (List.eq_of_mem_replicate hc)

/-- A path is read back from its text. -/
theorem ofText_text {p : Path} (hroot : IsRoot p.root) (hne : p.names ≠ [])
    (h : ∀ name ∈ p.names, IsName name) : ofText p.text = p := by
  obtain ⟨n, hn, hslashes⟩ := hroot
  have hfilter : p.names.filter (fun name => name ≠ [] ∧ name ≠ ['.']) = p.names := by
    apply List.filter_eq_self.mpr
    intro name hname
    simpa using ⟨(h name hname).1, (h name hname).2.1⟩
  have hempty : (List.replicate n ([] : List Char)).filter (fun name => name ≠ [] ∧ name ≠ ['.']) =
      [] := by
    simp
  rw [text_of_ne_nil hne, hslashes]
  unfold ofText
  simp only [String.toList_ofList, takeWhile_slashes n (head_intercalate_ne hne h),
    pieces_slashes, pieces_intercalate hne fun name hname => (h name hname).2.2]
  rw [List.filter_append, hempty, hfilter, List.nil_append, List.length_replicate,
    if_neg (Nat.not_lt.mpr hn), ← hslashes]

theorem intercalate_append_last (init : List (List Char)) (last ending : List Char) :
    ['/'].intercalate (init ++ [last ++ ending]) =
      ['/'].intercalate (init ++ [last]) ++ ending := by
  induction init with
  | nil => simp
  | cons name init ih =>
    obtain ⟨c, cs, hcs⟩ := List.exists_cons_of_ne_nil (show init ++ [last] ≠ [] by simp)
    obtain ⟨c', cs', hcs'⟩ := List.exists_cons_of_ne_nil (show init ++ [last ++ ending] ≠ [] by simp)
    rw [List.cons_append, List.cons_append, hcs', hcs, List.intercalate_cons_cons,
      List.intercalate_cons_cons, ← hcs, ← hcs', ih, ← List.append_assoc]

/-- Only the last name of a path is lengthened. -/
theorem extend_eq {root : List Char} {init : List (List Char)} {last : List Char} (ending : String) :
    (Path.mk root (init ++ [last])).extend ending =
      ⟨root, init ++ [last ++ ending.toList]⟩ := by
  simp [extend]

theorem text_extend {p : Path} (hne : p.names ≠ []) (ending : String) :
    (p.extend ending).text = p.text ++ ending := by
  obtain ⟨root, names⟩ := p
  obtain ⟨init, last, rfl⟩ := (List.eq_nil_or_concat' names).resolve_left hne
  rw [extend_eq, text_of_ne_nil (by simp), text_of_ne_nil (by simp)]
  simp only [intercalate_append_last]
  apply String.toList_injective
  simp

end LoxLang.Command.Path
