import Scaffold.Proofs.Disk.Committing

/-!
# Commits that stop halfway

A commit can end before all its artifacts are written: because one of them fails, or because the
program is killed while it writes one. Either way it stops after some number of artifacts
(`exists_stoppedAfter_of_error`), and what it leaves behind is those artifacts, perhaps some new
directories, and perhaps the draft of the next one (`StoppedAfter.realized`). An artifact that was not
reached is read as before (`StoppedAfter.readText_later`).
-/

namespace Scaffold

open View (Keeps)

/-- What can be found on the disk when writing an artifact was not finished. -/
inductive Artifact.Interrupted (a : Artifact) (t : Tree) : Tree → Prop
  /-- Nothing was done yet. -/
  | start : Interrupted a t t
  /-- Some of the directories on the way were made. -/
  | directories (p : Path) : Interrupted a t (t.makeDirectories p).1
  /-- A draft was written, with some part of its content. -/
  | draft {p : Path} {t₁ t₂ : Tree} {part : Content} (hmade : t.makeDirectories p = (t₁, .ok ()))
      (hdraft : t₁.write a.draftPath part = .ok t₂) : Interrupted a t t₂
  /-- The system refused a step. -/
  | failed {t' : Tree} {e : EmitError} (h : a.commit t = (t', .error e)) : Interrupted a t t'

/-- A commit of artifacts stopped after the first `k` of them. -/
def StoppedAfter (as : List Artifact) (k : Nat) (t t' : Tree) : Prop :=
  ∃ done c, commitAll (as.take k) t ⟨0, 0⟩ = (done, .ok c) ∧
    (t' = done ∨ ∃ a, as[k]? = some a ∧ a.Interrupted done t')

/-- An artifact whose writing was interrupted touches only the place of its draft. -/
theorem Artifact.keeps_of_interrupted {a : Artifact} {t t' : Tree} (hfree : a.DraftsFreely t.view)
    (h : a.Interrupted t t') : Keeps (a.drafted t.view) t.view t'.view := by
  cases h with
  | start => exact Keeps.refl _ _
  | directories p => exact (Tree.keeps_makeDirectories t p).mono (Set.empty_subset _)
  | @draft p t₁ _ _ hmade hdraft =>
    have hkeeps := Tree.keeps_makeDirectories t p
    rw [hmade] at hkeeps
    exact keeps_draft hfree hkeeps hdraft
  | failed h =>
    unfold commit at h
    split at h
    · obtain ⟨rfl, -⟩ := Prod.mk.inj h
      exact Keeps.refl _ _
    · cases h
    · split at h
      · next hwrite =>
        obtain ⟨rfl, -⟩ := Prod.mk.inj h
        exact keeps_of_write_error hfree hwrite
      · cases h

/-- Artifacts are committed one part after the other. -/
theorem commitAll_append (as bs : List Artifact) (t : Tree) (c : Committed) :
    commitAll (as ++ bs) t c =
      match commitAll as t c with
      | (t', .ok c') => commitAll bs t' c'
      | (t', .error e) => (t', .error e) := by
  induction as generalizing t c with
  | nil => rfl
  | cons a as ih =>
    rw [List.cons_append, commitAll, commitAll]
    rcases a.commit t with ⟨t₁, w | w⟩
    · rfl
    · exact ih t₁ _

/-- A commit that fails has stopped after some of its artifacts. -/
theorem exists_stoppedAfter_of_error {as : List Artifact} {t t' : Tree} {e : EmitError}
    (h : commitAll as t ⟨0, 0⟩ = (t', .error e)) : ∃ k < as.length, StoppedAfter as k t t' := by
  -- with the files committed so far as a parameter, by induction on the rest
  have hstop (done rest : List Artifact) (t₁ : Tree) (c : Committed)
      (hdone : commitAll done t ⟨0, 0⟩ = (t₁, .ok c))
      (hrest : commitAll rest t₁ c = (t', .error e)) :
      ∃ k < (done ++ rest).length, StoppedAfter (done ++ rest) k t t' := by
    induction rest generalizing done t₁ c with
    | nil => cases hrest
    | cons a rest ih =>
      rw [commitAll] at hrest
      split at hrest
      · next t₂ e' hstep =>
        obtain ⟨rfl, -⟩ := Prod.mk.inj hrest
        refine ⟨done.length, by simp, t₁, c, by simpa using hdone, .inr ⟨a, by simp, ?_⟩⟩
        exact .failed hstep
      · next t₂ w hstep =>
        rw [List.append_cons]
        refine ih _ t₂ _ ?_ hrest
        rw [commitAll_append, hdone]
        dsimp only
        rw [commitAll, hstep]
        rfl
  exact hstop [] as t ⟨0, 0⟩ rfl h

namespace StoppedAfter

variable {as : List Artifact} {k : Nat} {t t' : Tree}

/-- Where a stopped commit wrote: to the places of the artifacts before, and of one more draft. -/
def touched (v : View) (as : List Artifact) (k : Nat) : Set Location :=
  {l | l ∈ touchedBy v (as.take k) ∨ ∃ a, as[k]? = some a ∧ l ∈ a.drafted v}

/-- The artifact that a commit stopped at was not committed. -/
theorem notMem_take (hnodup : as.Nodup) {a : Artifact} (ha : as[k]? = some a) : a ∉ as.take k := by
  obtain ⟨hk, rfl⟩ := List.getElem?_eq_some_iff.1 ha
  intro hmem
  obtain ⟨i, hi, heq⟩ := List.mem_take_iff_getElem.1 hmem
  have hik : i = k := (hnodup.getElem_inj_iff).1 heq
  omega

/-- If an artifact is not reached, the one behind it is not reached either, and is not the next one. -/
theorem notMem_take_of_behind {a b : Artifact} {before after : List Artifact}
    (has : as = before ++ a :: b :: after) (hnodup : as.Nodup) (ha : a ∉ as.take k) :
    b ∉ as.take k ∧ as[k]? ≠ some b := by
  subst has
  obtain ⟨-, hback, hfront⟩ := List.nodup_append.1 hnodup
  have hb : b ∉ before := fun hmem => hfront b hmem b (by simp) rfl
  have hab : a ≠ b := fun hab => (List.nodup_cons.1 hback).1 (by simp [hab])
  -- the commit did not come past `a`
  have hk : k ≤ before.length := by
    by_contra hlt
    refine ha (List.mem_take_iff_getElem.2 ⟨before.length, by simp; omega, by simp⟩)
  refine ⟨fun hmem => ?_, fun hnext => ?_⟩
  · rw [List.take_append_of_le_length hk] at hmem
    exact hb (List.mem_of_mem_take hmem)
  · rcases hk.lt_or_eq with hlt | rfl
    · rw [List.getElem?_append_left hlt] at hnext
      exact hb (List.mem_of_getElem? hnext)
    · exact hab (by simpa using hnext)

/-- What a stopped commit achieved. -/
theorem realized (hind : Independent t.view as) (hnodup : as.Nodup) (h : StoppedAfter as k t t') :
    Keeps (touched t.view as k) t.view t'.view ∧
      ∀ a ∈ as.take k, a.isWritten t' = .ok true := by
  obtain ⟨done, c, hdone, hstop⟩ := h
  have hsub := List.take_subset k as
  have hrealized : Realized t.view (as.take k) done := by
    simpa using (Realized.nil t).commitAll (hind.subset hsub)
      (hnodup.sublist (List.take_sublist k as)) hdone
  -- the commit stopped between two artifacts, or within the next one
  rcases hstop with rfl | ⟨a, ha, hinterrupted⟩
  · exact ⟨hrealized.keeps.mono fun _ => .inl, hrealized.written⟩
  · have hmem := List.mem_of_getElem? ha
    have hnew := notMem_take hnodup ha
    have hkeeps :=
      Artifact.keeps_of_interrupted (hrealized.draftsFreely hind hsub hmem hnew) hinterrupted
    constructor
    · exact (hrealized.keeps.mono fun _ => .inl).trans (hkeeps.mono fun l hl =>
        .inr ⟨a, ha, hrealized.drafted_subset hind hsub hmem hnew hl⟩)
    · intro b hb
      refine Artifact.isWritten_of_keeps hkeeps (fun l hl hdraft => ?_) (hrealized.written b hb)
      exact hrealized.clear_committed hind hsub hmem hnew b hb l hl (a.drafted_subset _ hdraft)

/-- A file that is no artifact among the first `k` and no draft is as it was. -/
theorem file_iff (hind : Independent t.view as) (hnodup : as.Nodup) (h : StoppedAfter as k t t')
    {l : Location} (hplace : ∀ a ∈ as.take k, t.view.place? a.path ≠ some l)
    (hdraft : ∀ a ∈ as, t.view.place? a.draftPath ≠ some l) (content : Content) :
    t'.find? l = some (.file content) ↔ t.find? l = some (.file content) := by
  rw [Tree.find?_eq_file_iff, Tree.find?_eq_file_iff]
  refine (h.realized hind hnodup).1.eq_iff ?_ (by simp)
  rintro (⟨a, ha, hl | hl, -⟩ | ⟨a, ha, hl, -⟩)
  · exact hplace a ha hl
  · exact hdraft a (List.take_subset k as ha) hl
  · exact hdraft a (List.mem_of_getElem? ha) hl

/-- What a stopped commit wrote to, it wrote to for another artifact than those it did not reach. -/
theorem exists_of_mem_touched {b : Artifact} (hlater : b ∉ as.take k) (hnext : as[k]? ≠ some b)
    {v : View} {l : Location} (hl : l ∈ touched v as k) : ∃ a ∈ as, a ≠ b ∧ l ∈ a.touched v := by
  rcases hl with ⟨a, ha, htouched⟩ | ⟨a, ha, hdraft⟩
  · exact ⟨a, List.take_subset k as ha, ne_of_mem_of_not_mem ha hlater, htouched⟩
  · exact ⟨a, List.mem_of_getElem? ha, fun heq => hnext (heq ▸ ha), a.drafted_subset v hdraft⟩

/-- The file of an artifact that is not reached yet is read as before. -/
theorem readText_later (hind : Independent t.view as) (hnodup : as.Nodup) (h : StoppedAfter as k t t')
    {b : Artifact} (hb : b ∈ as) (hlater : b ∉ as.take k) (hnext : as[k]? ≠ some b) {text : Text}
    (hread : t.readText b.path = .ok text) : t'.readText b.path = .ok text := by
  obtain ⟨file, hreach, hfile⟩ := Artifact.exists_reach_of_readText hread
  have hclear : ∀ l ∈ (t.view.courseTo b.path).passed, l ∉ touched t.view as k := by
    intro l hl htouched
    obtain ⟨a, ha, hne, htouched⟩ := exists_of_mem_touched hlater hnext htouched
    obtain ⟨hlinks, hends⟩ := hind.others b hb a ha hne l htouched hl
    -- nothing on the path of `b` is touched: neither a directory, nor a link, nor the file
    rcases View.sight_of_mem_passed t.rooted_view hreach hfile hl with
      hdirectory | ⟨target, hlink⟩ | hend
    · exact htouched.2 hdirectory
    · exact hlinks target hlink
    · exact hends hend
  obtain ⟨hreach', hfile'⟩ :=
    View.reach_of_keeps t.rooted_view (h.realized hind hnodup).1 hclear hreach hfile
  exact Artifact.readText_of_reach hreach' hfile'

end StoppedAfter

end Scaffold
