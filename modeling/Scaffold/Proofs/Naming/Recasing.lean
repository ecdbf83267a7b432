import Scaffold.Naming.Words
import Scaffold.Proofs.Text.Cutting

/-!
# Recasing

Recasing changes nothing in a name but the case of letters (`map_toLower_recase`), and where it changes
something it leaves a capital. So a name without capitals comes from itself alone, if it comes from any
(`recase_eq_iff`).
-/

namespace Scaffold.Naming

open Text

/-- Recasing is capitalizing the acronyms, where they stand beside other words. -/
theorem recase_eq (s : Text) : recase s = s ∨
    recase s = (words s).flatMap fun word => if isAcronym word then word.map Char.toUpper else word := by
  dsimp only [recase]
  split_ifs
  · exact .inr rfl
  · exact .inl (flatten_words s)

/-- Recasing changes nothing but the case of letters. -/
theorem map_toLower_recase (s : Text) : (recase s).map Char.toLower = s.map Char.toLower := by
  rcases recase_eq s with h | h
  · rw [h]
  · have hword : ∀ word ∈ words s,
        (if isAcronym word then word.map Char.toUpper else word).map Char.toLower =
          word.map Char.toLower := by
      intro word _
      split_ifs
      · rw [List.map_map]
        exact List.map_congr_left fun c _ =>
          forall_letterCase (P := fun c => c.toUpper.toLower = c.toLower) (by decide)
            (fun c hupper _ _ => by rw [hupper]) c
      · rfl
    calc (recase s).map Char.toLower
        = (words s).flatMap fun word => word.map Char.toLower := by
          rw [h, List.map_flatMap]
          exact List.flatMap_congr hword
      _ = (words s).flatten.map Char.toLower := by rw [List.map_flatten, List.flatMap_def]
      _ = s.map Char.toLower := by rw [flatten_words]

/-- An acronym has a letter that can be a capital. -/
theorem exists_isUpper_of_isAcronym {word : Text} (h : isAcronym word) :
    ∃ c ∈ word.map Char.toUpper, c.isUpper := by
  have hhead : ∃ c rest, word = c :: rest ∧ (c.toLower = 'i' ∨ c.toLower = 'a') := by
    cases word with
    | nil => exact absurd h (by decide)
    | cons c rest =>
      refine ⟨c, rest, rfl, ?_⟩
      simp only [isAcronym, Bool.or_eq_true, decide_eq_true_eq] at h
      exact h.imp (fun h => (List.cons.inj h).1) fun h => (List.cons.inj h).1
  obtain ⟨c, rest, rfl, hc⟩ := hhead
  refine ⟨c.toUpper, List.mem_cons_self, ?_⟩
  have halpha : c.isAlpha := by
    rw [← isAlpha_toLower]
    rcases hc with hc | hc <;> rw [hc] <;> decide
  exact forall_letterCase (P := fun c => c.isAlpha → c.toUpper.isUpper) (by decide)
    (fun c _ _ hother halpha => absurd halpha (by simp [hother])) c halpha

/-- Where recasing leaves no capital, it has changed nothing. -/
theorem recase_eq_self {s : Text} (h : ∀ c ∈ recase s, ¬c.isUpper) : recase s = s := by
  rcases recase_eq s with hsame | hchanged
  · exact hsame
  · have hwords : ∀ word ∈ words s, ¬isAcronym word := by
      intro word hword hacronym
      obtain ⟨c, hc, hupper⟩ := exists_isUpper_of_isAcronym hacronym
      refine h c ?_ hupper
      rw [hchanged, List.mem_flatMap]
      exact ⟨word, hword, by rwa [if_pos hacronym]⟩
    calc recase s
        = (words s).flatMap fun word => word :=
          hchanged.trans (List.flatMap_congr fun word hword => if_neg (hwords word hword))
      _ = s := by rw [List.flatMap_id', flatten_words]

/-- Among the names that recasing keeps, one without capitals comes from itself alone. -/
theorem recase_eq_iff {s t : Text} (ht : recase t = t) (hsmall : ∀ c ∈ t, ¬c.isUpper) :
    recase s = t ↔ s = t := by
  constructor
  · intro h
    rw [← h, recase_eq_self (h ▸ hsmall)]
  · rintro rfl
    exact ht

end Scaffold.Naming
