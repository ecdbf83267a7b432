import Scaffold.Proofs.Schema.ArgumentOrder
import Scaffold.Proofs.Service.Merging
import Scaffold.Service.Archive

/-!
# The order of leftovers

The functions that are left over come from a table, which may list them in any order, and from the old file,
which lists them as they stand. They are sorted by name, and sorting keeps the order of equal names. So a
sorted list is known by what it holds under each name (`eq_of_filter_name`). What the table holds under a
name is one function at most, and never the name of an action's function, which is what the others are
called: whichever way the table is listed, the leftovers are the same (`leftovers_of_enumeration`).
-/

namespace Scaffold.Service

open Text Go Naming

/-! ## Sorting by name -/

/-- Functions in the order of their names; those of one name stay as they stand. -/
def sortByName (fs : List Function) : List Function := fs.mergeSort fun f g => le f.name g.name

theorem sortByName_perm (fs : List Function) : (sortByName fs).Perm fs := List.mergeSort_perm _ _

/-- Sorted functions are in the order of names. -/
theorem pairwise_sortByName (fs : List Function) :
    (sortByName fs).Pairwise fun f g => le f.name g.name := by
  apply List.pairwise_mergeSort
  · intro f g h
    exact trans_le
  · intro f g
    exact total_le f.name g.name

/-- Sorting keeps the order of functions with one name. -/
theorem filter_sortByName (name : Text) (fs : List Function) :
    (sortByName fs).filter (·.name = name) = fs.filter (·.name = name) := by
  have hname : ∀ f ∈ fs.filter (·.name = name), f.name = name := by
    intro f hf
    simpa using (List.mem_filter.1 hf).2
  have hequal : (fs.filter (·.name = name)).Pairwise fun f g => le f.name g.name := by
    apply List.pairwise_of_forall_mem_list
    intro f hf g hg
    rw [hname f hf, hname g hg]
    exact refl_le name
  -- equal names are in order already, and merge sort keeps what is in order
  have hsub : (fs.filter (·.name = name)).Sublist (sortByName fs) := by
    apply List.sublist_mergeSort
    · intro f g h
      exact trans_le
    · intro f g
      exact total_le f.name g.name
    · exact hequal
    · exact List.filter_sublist
  have hsub' := hsub.filter (·.name = name)
  rw [List.filter_filter] at hsub'
  simp only [Bool.and_self] at hsub'
  have hlength := ((sortByName_perm fs).filter (·.name = name)).length_eq
  exact (hsub'.eq_of_length hlength.symm).symm

/-- A list in the order of names is known by what it holds under each name. -/
theorem eq_of_filter_name {fs gs : List Function} (hfs : fs.Pairwise fun f g => le f.name g.name)
    (hgs : gs.Pairwise fun f g => le f.name g.name)
    (h : ∀ name, fs.filter (·.name = name) = gs.filter (·.name = name)) : fs = gs := by
  induction fs generalizing gs with
  | nil =>
    cases gs with
    | nil => rfl
    | cons g gs => simpa using h g.name
  | cons f fs ih =>
    cases gs with
    | nil => simpa using h f.name
    | cons g gs =>
      obtain ⟨hf, hfs'⟩ := List.pairwise_cons.1 hfs
      obtain ⟨hg, hgs'⟩ := List.pairwise_cons.1 hgs
      -- each of the first two stands in the other list, so that neither name comes before the other
      have hname : f.name = g.name := by
        have hmem : f ∈ (g :: gs).filter (·.name = f.name) := by
          rw [← h]
          simp
        have hmem' : g ∈ (f :: fs).filter (·.name = g.name) := by
          rw [h]
          simp
        rcases List.mem_cons.1 (List.mem_filter.1 hmem).1 with heq | hmem
        · rw [heq]
        rcases List.mem_cons.1 (List.mem_filter.1 hmem').1 with heq | hmem'
        · rw [heq]
        exact antisymm_le (hf g hmem') (hg f hmem)
      have hfirst : f = g := by
        have hcons := h f.name
        simp only [List.filter_cons, decide_true, if_true, hname] at hcons
        exact (List.cons.inj hcons).1
      subst hfirst
      congr 1
      apply ih hfs' hgs'
      intro name
      have hcons := h name
      simp only [List.filter_cons] at hcons
      split_ifs at hcons
      · exact (List.cons.inj hcons).2
      · exact hcons

/-- Lists that hold the same under each name are sorted into one order. -/
theorem sortByName_congr {fs gs : List Function}
    (h : ∀ name, fs.filter (·.name = name) = gs.filter (·.name = name)) :
    sortByName fs = sortByName gs := by
  apply eq_of_filter_name (pairwise_sortByName fs) (pairwise_sortByName gs)
  intro name
  rw [filter_sortByName, filter_sortByName, h]

/-- Where each name stands once, the order of a list does not matter for one name. -/
theorem filter_name_of_perm {fs gs : List Function} (hperm : fs.Perm gs)
    (hnodup : (gs.map Function.name).Nodup) (name : Text) :
    fs.filter (·.name = name) = gs.filter (·.name = name) := by
  have hfilter := hperm.filter (·.name = name)
  have hpairwise : (gs.filter (·.name = name)).Pairwise fun f g => f.name ≠ g.name :=
    (List.pairwise_map.1 hnodup).filter _
  have hname : ∀ f ∈ gs.filter (·.name = name), f.name = name := by
    intro f hf
    simpa using (List.mem_filter.1 hf).2
  cases hgs : gs.filter (·.name = name) with
  | nil =>
    rw [hgs] at hfilter
    exact hfilter.eq_nil
  | cons f rest =>
    rw [hgs] at hfilter hpairwise hname
    cases rest with
    | nil => exact hfilter.eq_singleton
    | cons g rest =>
      have hne := (List.pairwise_cons.1 hpairwise).1 g List.mem_cons_self
      rw [hname f (by simp), hname g (by simp)] at hne
      exact absurd rfl hne

/-! ## What no action claims -/

section

variable (actions : List Action) (claimed : List Text) (fs : List Function)

/-- What stays in the table of old functions stands under its own name, and no action's function has
that name. -/
theorem of_get?_unclaimed {name : Text} {f : Function}
    (h : (unclaimed actions (sortFunctions claimed fs).previous).get? name = some f) :
    f.name = name ∧ name ∉ actions.map functionName := by
  rw [get?_unclaimed] at h
  split_ifs at h with hname
  exact ⟨(of_get?_previous h).2.2, hname⟩

/-- No two functions that stay in the table have one name. -/
theorem nodup_names_unclaimed :
    ((unclaimed actions (sortFunctions claimed fs).previous).values.map Function.name).Nodup := by
  have hkeys : (unclaimed actions (sortFunctions claimed fs).previous).values.map Function.name =
      (unclaimed actions (sortFunctions claimed fs).previous).keys := by
    rw [Table.values, Table.keys, List.map_map]
    apply List.map_congr_left
    intro row hrow
    exact (of_get?_unclaimed actions claimed fs (Table.get?_eq_some_iff.2 hrow)).1
  rw [hkeys]
  exact Table.nodup_keys _

/-- What is not claimed has no name of an action's function. -/
theorem name_not_claimed_of_mem_unclaimed {f : Function}
    (hf : f ∈ (unclaimed actions (sortFunctions claimed fs).previous).values) :
    f.name ∉ actions.map functionName := by
  obtain ⟨name, hget⟩ := Table.exists_get?_of_mem_values hf
  obtain ⟨rfl, hname⟩ := of_get?_unclaimed actions claimed fs hget
  exact hname

end

/-- Under the name of an action's function, the leftovers are the old functions that do not answer, as they
stand in the old file. -/
theorem filter_leftovers (s : Setting) (responses : Schema.Registry) (g : Group) (existing : Option Text)
    {name : Text} (hname : name ∈ g.actions.map functionName) :
    (regenerate s responses g existing).leftovers.filter (·.name = name) =
      (oldFile existing).functions.filter fun f => !answers f && decide (f.name = name) := by
  let names := g.actions.map functionName
  let sorted := sortFunctions names (oldFile existing).functions
  have hleft : (unclaimed g.actions sorted.previous).values.filter (·.name = name) = [] := by
    rw [List.filter_eq_nil_iff]
    intro f hf hsame
    apply name_not_claimed_of_mem_unclaimed g.actions names _ hf
    rwa [of_decide_eq_true hsame]
  show (sortByName ((claim responses g.actions sorted.previous).2.values ++ sorted.clashing)).filter _ = _
  rw [filter_sortByName, claim_eq, List.filter_append, hleft, List.nil_append]
  show (((oldFile existing).functions.filter (!answers ·)).filter (names.contains ·.name)).filter _ = _
  rw [List.filter_filter, List.filter_filter]
  apply List.filter_congr
  intro f hf
  by_cases hsame : f.name = name
  · have hclaimed : names.contains name = true := List.contains_iff_mem.2 hname
    simp only [hsame, decide_true, hclaimed, Bool.true_and, Bool.and_true]
  · simp [hsame]

/-- Whatever the old content and the group are: when all actions have taken theirs, the functions in the
table have different names, none of them the name of an action's function, while every clashing function has
such a name, and those of one name are left over in the order in which they stand. So in whatever order the
table lists its functions, the leftovers are the same, and so is the archive. -/
theorem leftovers_of_enumeration (s : Setting) (responses : Schema.Registry) (g : Group)
    (existing : Option Text) :
    let names := g.actions.map functionName
    let old := (oldFile existing).functions
    let sorted := sortFunctions names old
    let left := (claim responses g.actions sorted.previous).2
    let out := regenerate s responses g existing
    (left.values.map Function.name).Nodup ∧ (∀ f ∈ left.values, f.name ∉ names) ∧
      (∀ f ∈ sorted.clashing, f.name ∈ names) ∧
      (∀ name ∈ names, out.leftovers.filter (·.name = name) =
        old.filter fun f => !answers f && decide (f.name = name)) ∧
      ∀ order : List Function, order.Perm left.values →
        sortByName (order ++ sorted.clashing) = out.leftovers ∧
        ∀ (package stamp : Text) (archive : Option Text),
          archive? package archive (sortByName (order ++ sorted.clashing)) stamp =
            archive? package archive out.leftovers stamp := by
  intro names old sorted left out
  have hleft : left = unclaimed g.actions sorted.previous := by
    show (claim responses g.actions sorted.previous).2 = _
    rw [claim_eq]
  have hnodup : (left.values.map Function.name).Nodup := by
    rw [hleft]
    exact nodup_names_unclaimed g.actions names old
  refine ⟨hnodup, ?_, ?_, ?_, ?_⟩
  · intro f hf
    rw [hleft] at hf
    exact name_not_claimed_of_mem_unclaimed g.actions names old hf
  · intro f hf
    exact (mem_clashing.1 hf).2.2
  · intro name hname
    exact filter_leftovers s responses g existing hname
  · intro order horder
    have hsame : sortByName (order ++ sorted.clashing) = out.leftovers := by
      apply sortByName_congr
      intro name
      rw [List.filter_append, List.filter_append, filter_name_of_perm horder hnodup]
    refine ⟨hsame, ?_⟩
    intro package stamp archive
    rw [hsame]

/-- Two functions that clash with an action, and two that answer to no action. -/
private def clashFile : Text :=
  ("package user\n\nfunc OldQuery() \x7b\n\treturn &response, nil\n\x7d\n\n" ++
    "func FindQuery() int \x7b\n\treturn 1\n\x7d\n\n" ++
    "func (s Second) FindQuery() int \x7b\n\treturn 2\n\x7d\n\n" ++
    "func BestQuery() \x7b\n\treturn &response, nil\n\x7d\n").toList

private def clashGroup : Group where
  owner := ⟨"shop".toList, "user".toList⟩
  kind := .query
  hasUpload := false
  actions := [⟨"find".toList, [], "FindResponse".toList, .query, ⟨"shop".toList, "user".toList⟩⟩]

/-- Two clashing methods and two leftovers, which the table lists in either order. -/
theorem leftovers_of_enumeration_clashes :
    let sorted := sortFunctions (clashGroup.actions.map functionName) (oldFile (some clashFile)).functions
    let left := (claim .empty clashGroup.actions sorted.previous).2
    left.values.map Function.name = ["BestQuery".toList, "OldQuery".toList] ∧
      sorted.clashing.map Function.opening = ["func ".toList, "func (s Second) ".toList] ∧
      sortByName (left.values.reverse ++ sorted.clashing) =
        (regenerate default .empty clashGroup (some clashFile)).leftovers := by
  refine ⟨?_, ?_, ?_⟩
  · decide +kernel
  · decide +kernel
  · have horders := (leftovers_of_enumeration default .empty clashGroup (some clashFile)).2.2.2.2
    exact (horders _ (List.reverse_perm _)).1

end Scaffold.Service
