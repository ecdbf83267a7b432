import Scaffold.Naming.Words

/-!
# Where words end

Words come about in two passes: runs of characters of one class are collected first, and then capitals
are handed over from one run to the next. What comes out can be told from place to place. Whether a word
ends between two characters depends on their classes and on that of the character behind them
(`Parts`), because a text is cut like its part behind the first character, save for that character
(`wordsBy_cons_cons`). It does not matter how characters are classified (`wordsBy_boundaries`).
-/

namespace Scaffold.Naming

open Text

/-- A word ends between characters of the classes `a` and `b`, where `next` is the class of what follows
them. The classes differ, save that a capital stays with small letters behind it; or both are capitals,
and the second one goes to small letters behind it. -/
def Parts (a b : Class) (next : Option Class) : Prop :=
  (a ≠ b ∧ ¬(a = .upper ∧ b = .lower)) ∨ (a = .upper ∧ b = .upper ∧ next = some .lower)

instance (a b : Class) (next : Option Class) : Decidable (Parts a b next) :=
  inferInstanceAs (Decidable (_ ∨ _))

/-- One of the words ends in front of the position `j` of the whole: some of them in front are as long
together. -/
def EndsAt (ws : List Text) (j : Nat) : Prop := ∃ front, front <+: ws ∧ front.flatten.length = j

/-- A word ends in front of the first word, or behind it where one of the others ends. -/
theorem endsAt_cons {w : Text} {ws : List Text} {j : Nat} :
    EndsAt (w :: ws) j ↔ j = 0 ∨ ∃ i, EndsAt ws i ∧ w.length + i = j := by
  constructor
  · rintro ⟨front, hfront, rfl⟩
    cases front with
    | nil => exact .inl rfl
    | cons v front =>
      obtain ⟨rfl, hrest⟩ := List.cons_prefix_cons.1 hfront
      exact .inr ⟨front.flatten.length, ⟨front, hrest, rfl⟩, by simp⟩
  · rintro (rfl | ⟨i, ⟨front, hfront, rfl⟩, rfl⟩)
    · exact ⟨[], List.nil_prefix, rfl⟩
    · exact ⟨w :: front, List.cons_prefix_cons.2 ⟨rfl, hfront⟩, by simp⟩

/-- Behind a character that is a word of its own, words end where they did without it. -/
theorem endsAt_singleton_cons {c : Char} {ws : List Text} {j : Nat} :
    EndsAt ([c] :: ws) (j + 1) ↔ EndsAt ws j := by
  rw [endsAt_cons]
  constructor
  · rintro (h | ⟨i, hi, hlength⟩)
    · exact absurd h (Nat.succ_ne_zero j)
    · rwa [show j = i by rw [List.length_singleton] at hlength; omega]
  · exact fun h => .inr ⟨j, h, Nat.add_comm 1 j⟩

/-- Behind a character that goes in front of a word, words end where they did without it, but no longer
in front of that word. -/
theorem endsAt_cons_cons {c : Char} {w : Text} {ws : List Text} {j : Nat} (hw : w ≠ []) :
    EndsAt ((c :: w) :: ws) (j + 1) ↔ 0 < j ∧ EndsAt (w :: ws) j := by
  have hpos : 0 < w.length := List.length_pos_iff.2 hw
  rw [endsAt_cons, endsAt_cons, List.length_cons]
  constructor
  · rintro (h | ⟨i, hi, hlength⟩)
    · exact absurd h (Nat.succ_ne_zero j)
    · exact ⟨by omega, .inr ⟨i, hi, by omega⟩⟩
  · rintro ⟨hj, h | ⟨i, hi, hlength⟩⟩
    · exact absurd h (Nat.ne_of_gt hj)
    · exact .inr ⟨i, hi, by omega⟩

section

variable (classOf : Char → Class)

/-! ## Runs -/

/-- The first run goes as far as the class of its first character, and the next run has another one. -/
theorem exists_runs_cons (c : Char) (s : Text) :
    ∃ run rest, runs classOf (c :: s) = (c :: run) :: rest ∧ s = run ++ rest.flatten ∧
      (∀ d ∈ run, classOf d = classOf c) ∧
      ∀ next ∈ rest.head?, ∃ d tail, next = d :: tail ∧ classOf d ≠ classOf c := by
  induction s generalizing c with
  | nil => exact ⟨[], [], rfl, rfl, nofun, nofun⟩
  | cons d s ih =>
    obtain ⟨run, rest, hruns, rfl, hrun, hrest⟩ := ih d
    have hextend : runs classOf (c :: d :: (run ++ rest.flatten)) =
        extend classOf c ((d :: run) :: rest) := by
      rw [runs, hruns]
    by_cases hclass : classOf c = classOf d
    · rw [extend, if_pos hclass] at hextend
      refine ⟨d :: run, rest, hextend, rfl, ?_, ?_⟩
      · exact List.forall_mem_cons.2 ⟨hclass.symm, fun e he => (hrun e he).trans hclass.symm⟩
      · rwa [hclass]
    · rw [extend, if_neg hclass] at hextend
      refine ⟨[], (d :: run) :: rest, hextend, rfl, nofun, ?_⟩
      rintro next ⟨⟩
      exact ⟨d, run, rfl, Ne.symm hclass⟩

/-- A run that starts with a capital gives its last one to a run that starts with a small letter. -/
theorem handOver_cons_cons (c d : Char) (run tail : Text) (rest : List Text) :
    handOver classOf (c :: run) ((d :: tail) :: rest) =
      if classOf c = .upper ∧ classOf d = .lower then
        (c :: run).dropLast ::
          handOver classOf ((c :: run).getLast?.toList ++ d :: tail) rest
      else (c :: run) :: handOver classOf (d :: tail) rest := by
  simp [handOver, startsWith]

/-! ## Words -/

theorem wordsBy_of_runs {s run : Text} {rest : List Text} (h : runs classOf s = run :: rest) :
    wordsBy classOf s = (handOver classOf run rest).filter (· ≠ []) := by
  rw [wordsBy, h]

/-- No word is empty. -/
theorem ne_nil_of_mem_wordsBy {s w : Text} (h : w ∈ wordsBy classOf s) : w ≠ [] := by
  unfold wordsBy at h
  split at h
  · exact absurd h List.not_mem_nil
  · simpa using (List.mem_filter.1 h).2

/-- A character in front of a text is a word of its own, or it goes in front of the first word. -/
theorem wordsBy_cons_cons (c d : Char) (s : Text) :
    wordsBy classOf (c :: d :: s) =
      if Parts (classOf c) (classOf d) (s.head?.map classOf) then [c] :: wordsBy classOf (d :: s)
      else (wordsBy classOf (d :: s)).modifyHead (c :: ·) := by
  obtain ⟨run, rest, hruns, rfl, hrun, hrest⟩ := exists_runs_cons classOf d s
  have hextend : runs classOf (c :: d :: (run ++ rest.flatten)) =
      extend classOf c ((d :: run) :: rest) := by
    rw [runs, hruns]
  have hnext : ∀ e ∈ run.head?, classOf e = classOf d :=
    fun e he => hrun e (List.mem_of_head? he)
  rw [wordsBy_of_runs classOf hruns]
  by_cases hclass : classOf c = classOf d
  · -- within a run a word ends only where the last capital is handed over
    rw [extend, if_pos hclass] at hextend
    rw [wordsBy_of_runs classOf hextend]
    -- the last run hands nothing over
    cases rest with
    | nil =>
      rw [if_neg (by cases run <;> simp_all [Parts])]
      rfl
    | cons next rest =>
      obtain ⟨e, tail, rfl, hne⟩ := hrest next rfl
      rw [handOver_cons_cons, handOver_cons_cons, hclass]
      by_cases hhand : classOf d = .upper ∧ classOf e = .lower
      · rw [if_pos hhand, if_pos hhand]
        cases run with
        | nil => simp [Parts, hhand]
        | cons f run => simp_all [Parts]
      · rw [if_neg hhand, if_neg hhand, if_neg (by cases run <;> simp_all [Parts])]
        rfl
  · rw [extend, if_neg hclass] at hextend
    rw [wordsBy_of_runs classOf hextend, handOver_cons_cons]
    by_cases hhand : classOf c = .upper ∧ classOf d = .lower
    · -- the capital is a run of its own, and all of it is handed over
      rw [if_pos hhand, if_neg (by simp_all [Parts])]
      cases rest with
      | nil => rfl
      | cons next rest =>
        obtain ⟨e, tail, rfl, hne⟩ := hrest next rfl
        have hstay : ¬(classOf c = .upper ∧ classOf e = .lower) := fun h => hne (h.2.trans hhand.2.symm)
        have hstay' : ¬(classOf d = .upper ∧ classOf e = .lower) := by simp [hhand.2]
        show List.filter _ ([] :: handOver classOf (c :: d :: run) _) = _
        rw [handOver_cons_cons, if_neg hstay, handOver_cons_cons, if_neg hstay']
        rfl
    · rw [if_neg hhand, if_pos (.inl ⟨hclass, hhand⟩)]
      rfl

/-- Whether a word ends between two characters is told by them and the one behind them. -/
theorem endsAt_wordsBy_iff (s : Text) (j : Nat) (hj : j + 1 < s.length) :
    EndsAt (wordsBy classOf s) (j + 1) ↔
      Parts (classOf s[j]) (classOf s[j + 1]) (s[j + 2]?.map classOf) := by
  induction s generalizing j with
  | nil => exact absurd hj (Nat.not_lt_zero _)
  | cons c s ih =>
    cases s with
    | nil => exact absurd hj (by simp)
    | cons d s =>
      have hne : ∀ w ∈ wordsBy classOf (d :: s), w ≠ [] := fun w => ne_nil_of_mem_wordsBy classOf
      have hflatten := flatten_wordsBy classOf (d :: s)
      rw [wordsBy_cons_cons, List.head?_eq_getElem?]
      cases hwords : wordsBy classOf (d :: s) with
      | nil => simp [hwords] at hflatten
      | cons w ws =>
        rw [hwords] at ih hne
        have hw : w ≠ [] := hne w List.mem_cons_self
        cases j with
        | zero =>
          show _ ↔ Parts (classOf c) (classOf d) (s[0]?.map classOf)
          split
          · next h => exact iff_of_true (endsAt_singleton_cons.2 (endsAt_cons.2 (.inl rfl))) h
          · next h =>
            exact iff_of_false (fun hends => absurd ((endsAt_cons_cons hw).1 hends).1 (by simp)) h
        | succ j =>
          refine Iff.trans ?_ (ih j (Nat.lt_of_succ_lt_succ hj))
          split
          · exact endsAt_singleton_cons
          · exact (endsAt_cons_cons hw).trans (and_iff_right j.succ_pos)

/-- The words are not empty, they are the whole text together, and whether one of them ends between two
characters is told by the classes of these and of the one behind them, however characters are
classified. -/
theorem wordsBy_boundaries (s : Text) :
    (∀ w ∈ wordsBy classOf s, w ≠ []) ∧ (wordsBy classOf s).flatten = s ∧
      ∀ (j : Nat) (hj : j + 1 < s.length), EndsAt (wordsBy classOf s) (j + 1) ↔
        Parts (classOf s[j]) (classOf s[j + 1]) (s[j + 2]?.map classOf) :=
  ⟨fun _ => ne_nil_of_mem_wordsBy classOf, flatten_wordsBy classOf s, endsAt_wordsBy_iff classOf s⟩

end

/-- A word ends in front of the last capital of `HTTPServer`, which goes to the small letters behind
it. -/
theorem wordsBy_boundaries_httpServer :
    3 + 1 < "HTTPServer".toList.length ∧
      words "HTTPServer".toList = ["HTTP".toList, "Server".toList] ∧
      EndsAt (words "HTTPServer".toList) (3 + 1) :=
  have hlength : 3 + 1 < "HTTPServer".toList.length := by decide
  ⟨hlength, by decide, ((wordsBy_boundaries Class.of "HTTPServer".toList).2.2 3 hlength).2
    (.inr ⟨rfl, rfl, rfl⟩)⟩

end Scaffold.Naming
