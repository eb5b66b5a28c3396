import Mathlib.Data.List.Basic
import Mathlib.Tactic.ByContra
import Mathlib.Tactic.SplitIfs
import LoxLang.Command.Disk

/-! What writing a file does to a disk: paths lead where they led, save to that file. -/
namespace LoxLang.Command.Disk

variable {d : Disk} {n m : List (List Char)}

theorem lookup_replace (n m : List (List Char)) (b : Entry)
    (entries : List (List (List Char) × Entry)) :
    (entries.map fun (other, e) => if other = n then (other, b) else (other, e)).lookup m =
      if m = n then (entries.lookup m).map fun _ => b else entries.lookup m := by
  induction entries with
  | nil => simp
  | cons entry entries ih =>
    obtain ⟨other, e⟩ := entry
    have hpair : (if other = n then (other, b) else (other, e)) =
        (other, if other = n then b else e) := by
      split
      · rfl
      · rfl
    simp only [List.map_cons, hpair]
    by_cases hm : m = other
    · subst hm
      by_cases hn : m = n
      · simp [hn]
      · simp [hn]
    · have hne : (m == other) = false := by simpa using hm
      simp only [List.lookup_cons, hne]
      exact ih

/-- The file is there, and every other name has the entry that it had. -/
theorem lookup_write (d : Disk) (n m : List (List Char)) (text : String) :
    (d.write n text).entries.lookup m =
      if m = n then some (.file text.toUTF8) else d.entries.lookup m := by
  unfold write
  by_cases hsome : (d.entries.lookup n).isSome
  · simp only [if_pos hsome, lookup_replace]
    by_cases hm : m = n
    · obtain ⟨e, he⟩ := Option.isSome_iff_exists.mp hsome
      rw [if_pos hm, if_pos hm, hm, he]
      rfl
    · rw [if_neg hm, if_neg hm]
  · simp only [if_neg hsome, List.lookup_append]
    by_cases hm : m = n
    · have hnone : d.entries.lookup n = none := Option.not_isSome_iff_eq_none.mp hsome
      simp [hm, hnone]
    · have hne : (m == n) = false := by simpa using hm
      simp [hm, hne, List.lookup_cons]

theorem mem_of_lookup_isSome {entries : List (List (List Char) × Entry)}
    (h : (entries.lookup n).isSome) : ∃ e, (n, e) ∈ entries := by
  obtain ⟨e, he⟩ := Option.isSome_iff_exists.mp h
  obtain ⟨l₁, l₂, hl, -⟩ := List.lookup_eq_some_iff.mp he
  exact ⟨e, by simp [hl]⟩

/-- There is something below a name as before, or the file is. -/
theorem any_write (d : Disk) (n m : List (List Char)) (text : String) :
    ((d.write n text).entries.any fun (other, _) => m.isPrefixOf other) =
      ((d.entries.any fun (other, _) => m.isPrefixOf other) || m.isPrefixOf n) := by
  unfold write
  by_cases hsome : (d.entries.lookup n).isSome
  · obtain ⟨e, he⟩ := mem_of_lookup_isSome hsome
    have hkeys : ((fun p : List (List Char) × Entry => m.isPrefixOf p.1) ∘
        fun p : List (List Char) × Entry =>
          if p.1 = n then (p.1, Entry.file text.toUTF8) else (p.1, p.2)) =
        fun p => m.isPrefixOf p.1 := by
      funext p
      simp only [Function.comp_apply]
      split
      · rfl
      · rfl
    have hbelow : m.isPrefixOf n → d.entries.any fun (other, _) => m.isPrefixOf other :=
      fun hmn => List.any_eq_true.mpr ⟨(n, e), he, hmn⟩
    simp only [if_pos hsome, List.any_map]
    rw [hkeys]
    cases hmn : m.isPrefixOf n with
    | true => simpa using hbelow hmn
    | false => simp
  · simp [if_neg hsome, List.any_append]

@[simp] theorem write_here (d : Disk) (n : List (List Char)) (text : String) :
    (d.write n text).here = d.here := by
  unfold write
  split
  · rfl
  · rfl

/-- The working directory and everything above it are directories. -/
theorem find?_aboveHere (h : m <+: d.here) : d.find? m = some .directory :=
  if_pos (List.isPrefixOf_iff_prefix.mpr h)

/-- A place for a file: every directory above it is there, and it is not a directory itself. -/
structure Vacant (d : Disk) (n : List (List Char)) : Prop where
  above : ∀ r, r <+: n → r ≠ n → d.find? r = some .directory
  free : d.find? n ≠ some .directory

theorem find?_write (h : d.Vacant n) (m : List (List Char)) (text : String) :
    (d.write n text).find? m = if m = n then some (.file text.toUTF8) else d.find? m := by
  unfold find?
  rw [write_here, lookup_write, any_write]
  by_cases hmn : m = n
  · have hhere : ¬ n.isPrefixOf d.here :=
      fun hn => h.free (find?_aboveHere (List.isPrefixOf_iff_prefix.mp hn))
    simp [hmn, hhere]
  · rw [if_neg hmn, if_neg hmn]
    split
    · rfl
    · next hhere =>
      cases hl : d.entries.lookup m with
      | some e => rfl
      | none =>
        cases hbelow : m.isPrefixOf n with
        | false => rw [Bool.or_false]
        | true =>
          have habove := h.above m (List.isPrefixOf_iff_prefix.mp hbelow) hmn
          simp only [find?, if_neg hhere, hl] at habove
          simpa using habove

theorem Vacant.write (h : d.Vacant n) (text : String) : (d.write n text).Vacant n := by
  constructor
  case above =>
    intro r hr hne
    rw [find?_write h, if_neg hne, h.above r hr hne]
  case free =>
    rw [find?_write h, if_pos rfl]
    exact nofun

theorem walk_parent (place rest : List (List Char)) :
    d.walk place (parentName :: rest) = d.walk place.dropLast rest := by
  rw [walk.eq_def]
  exact if_pos rfl

theorem walk_tooLong {name : List Char} (hname : name ≠ parentName) (hlong : isTooLong name)
    (place rest : List (List Char)) : d.walk place (name :: rest) = .error .tooLong := by
  rw [walk.eq_def]
  exact (if_neg hname).trans (if_pos hlong)

theorem walk_name {name : List Char} (hname : name ≠ parentName) (hshort : ¬ isTooLong name)
    (place rest : List (List Char)) :
    d.walk place (name :: rest) =
      match d.find? (place ++ [name]), rest with
      | some (.file bytes), [] => .ok (place ++ [name], .file bytes)
      | some .directory, rest => d.walk (place ++ [name]) rest
      | _, _ => .error .missing := by
  rw [walk.eq_def]
  exact (if_neg hname).trans (if_neg hshort)

/-- The names lead from one directory to another. -/
inductive Leads (d : Disk) : List (List Char) → List (List Char) → List (List Char) → Prop where
  | nil (place : List (List Char)) : Leads d place [] place
  | up {place rest q : List (List Char)} (hrest : Leads d place.dropLast rest q) :
      Leads d place (parentName :: rest) q
  | down {place rest q : List (List Char)} {name : List Char} (hname : name ≠ parentName)
      (hshort : ¬ isTooLong name) (h : d.find? (place ++ [name]) = some .directory)
      (hrest : Leads d (place ++ [name]) rest q) : Leads d place (name :: rest) q

namespace Leads

variable {place names q : List (List Char)}

theorem walk (h : d.Leads place names q) (tail : List (List Char)) :
    d.walk place (names ++ tail) = d.walk q tail := by
  induction h with
  | nil place => rfl
  | up _ ih =>
    rw [List.cons_append, walk_parent]
    exact ih
  | down hname hshort h _ ih =>
    rw [List.cons_append, walk_name hname hshort, h]
    exact ih

theorem write (h : d.Leads place names q) (hn : d.Vacant n) (text : String) :
    (d.write n text).Leads place names q := by
  induction h with
  | nil place => exact .nil place
  | up _ ih => exact .up ih
  | @down place rest q name hname hshort h _ ih =>
    have hne : place ++ [name] ≠ n := by
      intro heq
      exact hn.free (heq ▸ h)
    refine .down hname hshort ?_ ih
    rw [find?_write hn, if_neg hne, h]

/-- Everything above the directory that the names lead to is a directory. -/
theorem above (h : d.Leads place names q) (hplace : ∀ r, r <+: place → d.find? r = some .directory) :
    ∀ r, r <+: q → d.find? r = some .directory := by
  induction h with
  | nil place => exact hplace
  | up _ ih => exact ih fun r hr => hplace r (hr.trans (List.dropLast_prefix _))
  | @down place rest q name _ _ h _ ih =>
    apply ih
    intro r hr
    rcases List.prefix_concat_iff.mp hr with rfl | hr
    · exact h
    · exact hplace r hr

/-- In a directory that is led to, there is a place for every file that is not a directory. -/
theorem vacant (h : d.Leads place names q) (hplace : place <+: d.here) {last : List Char}
    (hlast : d.find? (q ++ [last]) ≠ some .directory) : d.Vacant (q ++ [last]) := by
  refine ⟨?_, hlast⟩
  intro r hr hself
  rcases List.prefix_concat_iff.mp hr with heq | hr
  · exact absurd heq hself
  · exact h.above (fun r hr => find?_aboveHere (hr.trans hplace)) r hr

end Leads

/-- A walk that comes to a file goes up, goes down into a directory, or is at the file. -/
theorem walk_cons_file {place rest r : List (List Char)} {name : List Char} {b : ByteArray}
    (h : d.walk place (name :: rest) = .ok (r, .file b)) :
    (name = parentName ∧ d.walk place.dropLast rest = .ok (r, .file b)) ∨
    (name ≠ parentName ∧ ¬ isTooLong name ∧
      ((rest = [] ∧ r = place ++ [name] ∧ d.find? r = some (.file b)) ∨
        (d.find? (place ++ [name]) = some .directory ∧
          d.walk (place ++ [name]) rest = .ok (r, .file b)))) := by
  by_cases hname : name = parentName
  · subst hname
    rw [walk_parent] at h
    exact .inl ⟨rfl, h⟩
  · by_cases hlong : isTooLong name
    · rw [walk_tooLong hname hlong] at h
      cases h
    · refine .inr ⟨hname, hlong, ?_⟩
      rw [walk_name hname hlong] at h
      cases hfind : d.find? (place ++ [name]) with
      | none =>
        rw [hfind] at h
        cases h
      | some e =>
        rw [hfind] at h
        cases e with
        | directory => exact .inr ⟨rfl, h⟩
        | file bytes =>
          cases rest with
          | nil =>
            cases h
            exact .inl ⟨rfl, rfl, hfind⟩
          | cons => cases h

theorem walk_nil_not_file {place r : List (List Char)} {b : ByteArray} :
    d.walk place [] ≠ .ok (r, .file b) := by
  rw [walk]
  simp

/-- A path to a file leads to a directory and ends in the name of the file there. -/
theorem exists_leads {place init r : List (List Char)} {last : List Char} {b : ByteArray}
    (h : d.walk place (init ++ [last]) = .ok (r, .file b)) :
    ∃ q, d.Leads place init q ∧ r = q ++ [last] ∧ last ≠ parentName ∧ ¬ isTooLong last ∧
      d.find? r = some (.file b) := by
  induction init generalizing place with
  | nil =>
    obtain ⟨-, hwalk⟩ | ⟨hname, hshort, ⟨-, hr, hfind⟩ | ⟨-, hwalk⟩⟩ := walk_cons_file h
    · exact absurd hwalk walk_nil_not_file
    · exact ⟨place, .nil place, hr, hname, hshort, hfind⟩
    · exact absurd hwalk walk_nil_not_file
  | cons name init ih =>
    obtain ⟨rfl, hwalk⟩ | ⟨hname, hshort, ⟨hrest, -⟩ | ⟨hfind, hwalk⟩⟩ := walk_cons_file h
    · obtain ⟨q, hq, hlast⟩ := ih hwalk
      exact ⟨q, .up hq, hlast⟩
    · simp at hrest
    · obtain ⟨q, hq, hlast⟩ := ih hwalk
      exact ⟨q, .down hname hshort hfind hq, hlast⟩

/-- A path starts from the working directory or from above it. -/
theorem origin_isAboveHere (d : Disk) (p : Path) : d.origin p <+: d.here := by
  unfold origin
  split
  · exact List.prefix_rfl
  · exact List.nil_prefix

@[simp] theorem write_origin (d : Disk) (n : List (List Char)) (text : String) (p : Path) :
    (d.write n text).origin p = d.origin p := by
  rw [origin, origin, write_here]

theorem follow_eq (d : Disk) {p : Path} (hzero : '\x00' ∉ p.text.toList)
    (hshort : p.text.utf8ByteSize ≤ maxPathSize) : d.follow p = d.walk (d.origin p) p.names := by
  unfold follow
  rw [if_neg (by simpa using hzero), if_neg (by omega)]

theorem text_of_follow {p : Path} {x : List (List Char) × Entry} (h : d.follow p = .ok x) :
    '\x00' ∉ p.text.toList ∧ p.text.utf8ByteSize ≤ maxPathSize := by
  unfold follow at h
  split_ifs at h with hzero hlong
  exact ⟨by simpa using hzero, by omega⟩

/-- A path to a file has a last name, in the directory that the names before it lead to. -/
theorem exists_leads_of_follow {p : Path} {r : List (List Char)} {b : ByteArray}
    (h : d.follow p = .ok (r, .file b)) :
    ∃ init last q, p.names = init ++ [last] ∧ d.Leads (d.origin p) init q ∧ r = q ++ [last] ∧
      last ≠ parentName ∧ ¬ isTooLong last ∧ d.find? r = some (.file b) := by
  obtain ⟨hzero, hshort⟩ := text_of_follow h
  rw [d.follow_eq hzero hshort] at h
  rcases List.eq_nil_or_concat' p.names with hnil | ⟨init, last, hnames⟩
  · rw [hnil] at h
    exact absurd h walk_nil_not_file
  · rw [hnames] at h
    obtain ⟨q, hleads⟩ := exists_leads h
    exact ⟨init, last, q, hnames, hleads⟩

theorem size_of_entry {p : Path} (hzero : '\x00' ∉ p.text.toList)
    (hlong : d.entry p ≠ .error .tooLong) : p.text.utf8ByteSize ≤ maxPathSize := by
  by_contra hsize
  apply hlong
  unfold entry follow
  rw [if_neg (by simpa using hzero), if_pos (by omega)]
  rfl

/-- A path that is short enough and leads to no directory leads to the file that is written there. -/
theorem Leads.follow_write_self {p : Path} {init q : List (List Char)} {last : List Char}
    (h : d.Leads (d.origin p) init q) (hnames : p.names = init ++ [last])
    (hname : last ≠ parentName) (hzero : '\x00' ∉ p.text.toList)
    (hlong : d.entry p ≠ .error .tooLong) (hdirectory : d.entry p ≠ .ok .directory) :
    d.Vacant (q ++ [last]) ∧ ∀ text, (d.write (q ++ [last]) text).follow p =
      .ok (q ++ [last], .file text.toUTF8) := by
  have hsize := size_of_entry hzero hlong
  have hwalk : ∀ e : Disk, e.Leads (e.origin p) init q → e.follow p = e.walk q [last] := by
    intro e he
    rw [e.follow_eq hzero hsize, hnames]
    exact he.walk _
  unfold entry at hlong hdirectory
  rw [hwalk d h] at hlong hdirectory
  have hshort : ¬ isTooLong last := by
    intro htoo
    rw [walk_tooLong hname htoo] at hlong
    exact hlong rfl
  have hvacant : d.Vacant (q ++ [last]) := by
    apply h.vacant (d.origin_isAboveHere p)
    intro hfind
    rw [walk_name hname hshort, hfind] at hdirectory
    exact hdirectory rfl
  refine ⟨hvacant, ?_⟩
  intro text
  have hwritten := h.write hvacant text
  rw [← write_origin d (q ++ [last]) text] at hwritten
  rw [hwalk _ hwritten, walk_name hname hshort, find?_write hvacant, if_pos rfl]

/-- A path leads to the same file after another file was written. -/
theorem follow_write {p : Path} {r : List (List Char)} {b : ByteArray} (hn : d.Vacant n)
    (h : d.follow p = .ok (r, .file b)) (hr : r ≠ n) (text : String) :
    (d.write n text).follow p = .ok (r, .file b) := by
  obtain ⟨hzero, hshort⟩ := text_of_follow h
  obtain ⟨init, last, q, hnames, hleads, rfl, hname, hlast, hfind⟩ := exists_leads_of_follow h
  rw [follow_eq _ hzero hshort, write_origin, hnames, (hleads.write hn text).walk,
    walk_name hname hlast, find?_write hn, if_neg hr, hfind]

theorem unifyLines_of_not_mem {cs : List Char} (h : '\r' ∉ cs) : unifyLines cs = cs := by
  induction cs with
  | nil => rfl
  | cons c cs ih =>
    rw [List.mem_cons, not_or] at h
    rw [unifyLines, ih h.2]
    · intro _ hc _
      exact h.1 hc.symm
    · intro hc
      exact h.1 hc.symm

/-- A text without carriage returns is read back from its bytes. -/
theorem textOf?_toUTF8 {text : String} (h : '\r' ∉ text.toList) :
    textOf? text.toUTF8 = some text := by
  have hbytes : String.fromUTF8? text.toUTF8 = some text := dif_pos text.isValidUTF8
  unfold textOf?
  rw [hbytes, Option.map_some, unifyLines_of_not_mem h, String.ofList_toList]

end LoxLang.Command.Disk
