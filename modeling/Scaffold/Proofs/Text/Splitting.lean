import Mathlib.Data.List.Basic
import Scaffold.Text.Basic

/-!
# Splitting at a separator

The parts of a text that is put together around a separator are the parts of both sides
(`parts_append_separator`), and a text without separators is one part (`parts_of_notMem`).
-/

namespace Scaffold.Text

variable {sep : Char}

/-- Splitting goes on behind a separator as at the beginning of a text. -/
private theorem splitHead_append_separator (s t : Text) :
    splitHead sep (s ++ sep :: t) =
      ((splitHead sep s).1, (splitHead sep s).2 ++ splitOn sep t) := by
  induction s with
  | nil => simp [splitHead, splitOn]
  | cons c s ih =>
    by_cases hc : c = sep <;> simp [splitHead, ih, hc]

/-- A separator splits what stands before it from what stands behind it. -/
theorem splitOn_append_separator (s t : Text) :
    splitOn sep (s ++ sep :: t) = splitOn sep s ++ splitOn sep t := by
  rw [splitOn, splitHead_append_separator]
  rfl

/-- A separator parts what stands before it from what stands behind it. -/
theorem parts_append_separator (s t : Text) :
    parts sep (s ++ sep :: t) = parts sep s ++ parts sep t := by
  rw [parts, splitOn_append_separator, List.filter_append]
  rfl

/-- A separator in front changes no part. -/
theorem parts_cons_separator (t : Text) : parts sep (sep :: t) = parts sep t :=
  parts_append_separator [] t

/-- A separator at the end parts what stands before it from what follows. -/
theorem parts_append_of_getLast? {s : Text} (h : s.getLast? = some sep) (t : Text) :
    parts sep (s ++ t) = parts sep s ++ parts sep t := by
  obtain ⟨front, rfl⟩ := List.getLast?_eq_some_iff.1 h
  rw [List.append_assoc, List.singleton_append, parts_append_separator, parts_append_separator]
  simp [parts, splitOn, splitHead]

/-- Whether a separator stands between two texts, at the end of one or at the start of the other; or
nothing stands behind the first. -/
def Parted (sep : Char) (before : Option Char) (t : Text) : Prop :=
  t = [] ∨ t.head? = some sep ∨ before = some sep

/-- The parts of two texts with a separator between them are those of either. -/
theorem parts_append_of_parted {s t : Text} (h : Parted sep s.getLast? t) :
    parts sep (s ++ t) = parts sep s ++ parts sep t := by
  rcases h with rfl | hhead | hlast
  · simp [parts, splitOn, splitHead]
  · obtain ⟨t, rfl⟩ := List.head?_eq_some_iff.1 hhead
    rw [parts_append_separator, parts_cons_separator]
  · exact parts_append_of_getLast? hlast t

/-- Without separators, a front goes into the first part. -/
private theorem splitHead_append_of_notMem {s : Text} (h : sep ∉ s) (t : Text) :
    splitHead sep (s ++ t) = (s ++ (splitHead sep t).1, (splitHead sep t).2) := by
  induction s with
  | nil => rfl
  | cons c s ih =>
    have hc : c ≠ sep := fun heq => h (heq ▸ List.mem_cons_self)
    simp [splitHead, ih fun hmem => h (List.mem_cons_of_mem c hmem), hc]

/-- A text without separators belongs to the first part. -/
theorem parts_append_of_notMem {s : Text} (hne : s ≠ []) (h : sep ∉ s) (t : Text) :
    parts sep (s ++ t) = (s ++ (splitHead sep t).1) :: (splitHead sep t).2.filter (· ≠ []) := by
  rw [parts, splitOn, splitHead_append_of_notMem h]
  simp [hne]

/-- A text without separators is not split. -/
theorem splitOn_of_notMem {s : Text} (h : sep ∉ s) : splitOn sep s = [s] := by
  have hsplit := splitHead_append_of_notMem h []
  rw [List.append_nil] at hsplit
  simp [splitOn, hsplit, splitHead]

/-- A text without separators is its only part. -/
theorem parts_of_notMem {s : Text} (hne : s ≠ []) (h : sep ∉ s) : parts sep s = [s] := by
  simpa [splitHead] using parts_append_of_notMem hne h []

/-- Splitting takes out the separators and nothing else. -/
theorem flatten_splitOn (s : Text) : (splitOn sep s).flatten = s.filter (· ≠ sep) := by
  induction s with
  | nil => rfl
  | cons c s ih =>
    by_cases hc : c = sep <;> simp_all [splitOn, splitHead]

/-- No separator is in what stands between separators. -/
theorem notMem_of_mem_splitOn {s part : Text} (h : part ∈ splitOn sep s) : sep ∉ part := by
  intro hsep
  have hflat : sep ∈ (splitOn sep s).flatten := List.mem_flatten.2 ⟨part, h, hsep⟩
  rw [flatten_splitOn] at hflat
  simpa using (List.mem_filter.1 hflat).2

/-- A part is not empty, and no separator is in it. -/
theorem of_mem_parts {s part : Text} (h : part ∈ parts sep s) : part ≠ [] ∧ sep ∉ part := by
  obtain ⟨hmem, hne⟩ := List.mem_filter.1 h
  exact ⟨by simpa using hne, notMem_of_mem_splitOn hmem⟩

/-- The first piece stands at the beginning of the text, and the others somewhere in it. -/
private theorem splitHead_infix (sep : Char) (s : Text) :
    (splitHead sep s).1 <+: s ∧ ∀ part ∈ (splitHead sep s).2, part <:+: s := by
  induction s with
  | nil => simp [splitHead]
  | cons c s ih =>
    obtain ⟨hhead, htail⟩ := ih
    have hcons {part : Text} (h : part <:+: s) : part <:+: c :: s := List.infix_cons h
    rw [splitHead]
    split_ifs
    · refine ⟨⟨c :: s, rfl⟩, List.forall_mem_cons.2 ⟨hcons hhead.isInfix, ?_⟩⟩
      exact fun part h => hcons (htail part h)
    · exact ⟨(List.prefix_cons_inj c).2 hhead, fun part h => hcons (htail part h)⟩

/-- A part stands in the text. -/
theorem infix_of_mem_parts {s part : Text} (h : part ∈ parts sep s) : part <:+: s := by
  obtain ⟨hhead, htail⟩ := splitHead_infix sep s
  rcases List.mem_cons.1 (List.mem_of_mem_filter h) with rfl | hmem
  · exact hhead.isInfix
  · exact htail part hmem

/-- Joining texts without separators is undone by splitting. -/
theorem splitOn_join {ts : List Text} (hne : ts ≠ []) (h : ∀ t ∈ ts, sep ∉ t) :
    splitOn sep (join [sep] ts) = ts := by
  induction ts with
  | nil => exact absurd rfl hne
  | cons t ts ih =>
    obtain ⟨hsep, hts⟩ := List.forall_mem_cons.1 h
    cases ts with
    | nil => simpa [join] using splitOn_of_notMem hsep
    | cons u us =>
      have hjoin : join [sep] (t :: u :: us) = t ++ sep :: join [sep] (u :: us) := by
        simp [join, List.intercalate_cons_cons]
      rw [hjoin, splitOn_append_separator, splitOn_of_notMem hsep, ih (by simp) hts]
      rfl

/-- Joining parts is undone by splitting. -/
theorem parts_join {ts : List Text} (h : ∀ t ∈ ts, t ≠ [] ∧ sep ∉ t) : parts sep (join [sep] ts) = ts := by
  by_cases hne : ts = []
  · rw [hne]
    rfl
  · rw [parts, splitOn_join hne fun t ht => (h t ht).2, List.filter_eq_self]
    exact fun t ht => by simpa using (h t ht).1

/-- The parts hold all characters but the separators. -/
theorem mem_parts_iff {s : Text} {c : Char} (hc : c ≠ sep) :
    (∃ part ∈ parts sep s, c ∈ part) ↔ c ∈ s := by
  have hmem : c ∈ (splitOn sep s).flatten ↔ c ∈ s := by simp [flatten_splitOn, hc]
  rw [← hmem, List.mem_flatten]
  refine exists_congr fun part => and_congr_left fun hpart => ?_
  simp [parts, List.ne_nil_of_mem hpart]

end Scaffold.Text
