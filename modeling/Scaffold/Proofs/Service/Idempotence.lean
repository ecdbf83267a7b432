import Scaffold.Proofs.Service.Merging

/-!
# Regenerating twice

A second run over what a run wrote changes nothing. Each action finds its own successor there, under its
name and among the functions that answer (`get?_previous_written`), and a successor succeeds itself.
-/

namespace Scaffold.Service

open Text Go Naming

variable {responses : Schema.Registry} {g : Group}

/-- The successor of an action over the functions of an old file. -/
private def successorIn (responses : Schema.Registry) (g : Group) (fs : List Function) (a : Action) :
    Function :=
  successor responses a
    ((sortFunctions (g.actions.map functionName) fs).previous.get? (functionName a))

private theorem answers_successorIn (fs : List Function) (a : Action) :
    answers (successorIn responses g fs a) :=
  answers_successor fun _ hf => (of_get?_previous hf).2.1

private theorem name_successorIn (fs : List Function) (a : Action) :
    (successorIn responses g fs a).name = functionName a :=
  name_successor fun _ hf => (of_get?_previous hf).2.2

/-! ## Sorting what was written -/

/-- The answering functions of a written file are the successors. -/
private theorem filter_answers_written (hg : HasNamedActions responses g) (fs : List Function) :
    (written responses g fs).filter answers = g.actions.map (successorIn responses g fs) := by
  rw [written_eq hg, List.filter_append]
  have hcarried : (sortFunctions (g.actions.map functionName) fs).carried.filter answers = [] := by
    refine List.filter_eq_nil_iff.2 fun f hf => ?_
    simp [(mem_carried.1 hf).2.1]
  have hall : ∀ f ∈ g.actions.map (successorIn responses g fs), answers f := by
    intro f hf
    obtain ⟨a, -, rfl⟩ := List.mem_map.1 hf
    exact answers_successorIn fs a
  rw [hcarried, List.nil_append]
  exact List.filter_eq_self.2 hall

/-- The other functions of a written file are the ones that were carried over. -/
private theorem filter_not_answers_written (hg : HasNamedActions responses g) (fs : List Function) :
    (written responses g fs).filter (!answers ·) =
      (sortFunctions (g.actions.map functionName) fs).carried := by
  rw [written_eq hg, List.filter_append]
  have hcarried : ∀ f ∈ (sortFunctions (g.actions.map functionName) fs).carried, !answers f := by
    intro f hf
    simp [(mem_carried.1 hf).2.1]
  have hnone : (g.actions.map (successorIn responses g fs)).filter (!answers ·) = [] := by
    refine List.filter_eq_nil_iff.2 fun f hf => ?_
    obtain ⟨a, -, rfl⟩ := List.mem_map.1 hf
    simp [answers_successorIn fs a]
  rw [List.filter_eq_self.2 hcarried]
  exact (congrArg (_ ++ ·) hnone).trans (List.append_nil _)

/-- Helpers stay helpers. -/
theorem carried_written (hg : HasNamedActions responses g) (fs : List Function) :
    (sortFunctions (g.actions.map functionName) (written responses g fs)).carried =
      (sortFunctions (g.actions.map functionName) fs).carried := by
  show ((written responses g fs).filter (!answers ·)).filter _ = _
  rw [filter_not_answers_written hg]
  refine List.filter_eq_self.2 fun f hf => ?_
  simpa using (mem_carried.1 hf).2.2

/-- Nothing clashes in a written file. -/
theorem clashing_written (hg : HasNamedActions responses g) (fs : List Function) :
    (sortFunctions (g.actions.map functionName) (written responses g fs)).clashing = [] := by
  show ((written responses g fs).filter (!answers ·)).filter _ = _
  rw [filter_not_answers_written hg]
  refine List.filter_eq_nil_iff.2 fun f hf => ?_
  simpa using (mem_carried.1 hf).2.2

/-- Each action finds its successor under its name. -/
theorem get?_previous_written (hg : HasNamedActions responses g) (fs : List Function) {a : Action}
    (ha : a ∈ g.actions) :
    (sortFunctions (g.actions.map functionName) (written responses g fs)).previous.get?
        (functionName a) =
      some (successor responses a
        ((sortFunctions (g.actions.map functionName) fs).previous.get? (functionName a))) := by
  have hmem : successorIn responses g fs a ∈ written responses g fs := by
    rw [written_eq hg]
    exact List.mem_append_right _ (List.mem_map_of_mem (f := successorIn responses g fs) ha)
  have hnames : (((written responses g fs).filter answers).map Function.name).Nodup := by
    rw [filter_answers_written hg, List.map_map]
    have hname : Function.name ∘ successorIn responses g fs = functionName :=
      funext fun a => name_successorIn fs a
    rw [hname]
    exact hg.functions
  have hanswers : answers (successorIn responses g fs a) := answers_successorIn fs a
  have hget := get?_previous_of_mem (g.actions.map functionName) hmem hanswers
    fun f' hf' hanswers' hname => List.inj_on_of_nodup_map hnames
      (List.mem_filter.2 ⟨hf', hanswers'⟩) (List.mem_filter.2 ⟨hmem, hanswers⟩) hname
  rw [name_successorIn] at hget
  exact hget

/-- All successors of a written file are claimed. -/
theorem values_unclaimed_written (hg : HasNamedActions responses g) (fs : List Function) :
    (unclaimed g.actions
      (sortFunctions (g.actions.map functionName) (written responses g fs)).previous).values = [] := by
  refine List.eq_nil_iff_forall_not_mem.2 fun f hf => ?_
  obtain ⟨name, hget⟩ := Table.exists_get?_of_mem_values hf
  rw [get?_unclaimed] at hget
  split_ifs at hget with hclaimed
  obtain ⟨hmem, hanswers, rfl⟩ := of_get?_previous hget
  have hf : f ∈ (written responses g fs).filter answers := List.mem_filter.2 ⟨hmem, hanswers⟩
  rw [filter_answers_written hg] at hf
  obtain ⟨a, ha, rfl⟩ := List.mem_map.1 hf
  rw [name_successorIn] at hclaimed
  exact hclaimed (List.mem_map_of_mem ha)

/-- The functions that were written are written again. -/
theorem written_written (hg : HasNamedActions responses g) (fs : List Function) :
    written responses g (written responses g fs) = written responses g fs := by
  rw [written_eq hg (written responses g fs), carried_written hg, written_eq hg fs]
  congr 1
  refine List.map_congr_left fun a ha => ?_
  rw [← written_eq hg, get?_previous_written hg fs ha]
  exact (fate_successor responses a _).1

/-! ## The second run -/

/-- Nothing drifts in a written file. -/
private theorem drifted_written (hg : HasNamedActions responses g) (fs : List Function) :
    ((claims g.actions
      (sortFunctions (g.actions.map functionName) (written responses g fs)).previous).map
        fun (a, old) => fate responses a old).countP (· matches .drifted _) = 0 := by
  refine List.countP_eq_zero.2 fun fate hfate => ?_
  rw [claims_of_nodup hg.functions, List.map_map] at hfate
  obtain ⟨a, ha, rfl⟩ := List.mem_map.1 hfate
  have hnot := (fate_successor responses a
    ((sortFunctions (g.actions.map functionName) fs).previous.get? (functionName a))).2
  simp only [Function.comp_apply, get?_previous_written hg fs ha]
  exact Bool.false_ne_true

/-- A second run over what a run wrote writes the same, leaves nothing over and finds no drift. -/
theorem regenerate_idempotent {s : Setting} {existing : Option Text} (hg : WellNamed responses g)
    (himports : ∀ path ∈ freshImports s g.hasUpload, IsQuotable path)
    (hexisting : ∀ content ∈ existing, trim content = [] ∨ Plain content) :
    let first := regenerate s responses g existing
    let second := regenerate s responses g (some first.content)
    second.content = first.content ∧ second.leftovers = [] ∧
      (∀ backup stamp, archive? g.owner.package backup second.leftovers stamp = none) ∧
      second.tally.drifted = 0 := by
  intro first second
  obtain ⟨package, hheader, hblocks, hfs⟩ : ∃ package,
      IsHeaderText ((oldFile existing).header.getD (freshClause s g)) package ∧
        (∀ block ∈ (oldFile existing).declarations, IsBlock block) ∧
        ∀ f ∈ (oldFile existing).functions, Whole f ∧ Sturdy (lex f.text) := by
    -- what is laid out has the new header if there was no file, else the old header
    by_cases hblank : ∀ content ∈ existing, trim content = []
    · rw [oldFile_of_blank hblank]
      exact ⟨g.owner.package, isHeaderText_freshClause hg.package hg.package_ne himports, nofun, nofun⟩
    · obtain ⟨content, rfl, hne⟩ : ∃ content, existing = some content ∧ trim content ≠ [] := by
        simpa using hblank
      obtain ⟨⟨header, package, hheader, -, hisHeader⟩, hblocks, hfs⟩ :=
        ((hexisting content rfl).resolve_left hne).tidy
      rw [oldFile_of_header hheader, hheader]
      exact ⟨package, hisHeader, hblocks, hfs⟩
  have hparse := parse_regenerate (s := s) hg.toHasNamedActions hheader hblocks hfs
  have hold := (oldFile_of_header (congrArg File.header hparse)).trans hparse
  have hleftovers : second.leftovers = [] := by
    have hperm := perm_leftovers s responses g (some first.content)
    rw [show oldFile (some first.content) = _ from hold] at hperm
    simp only [values_unclaimed_written hg.toHasNamedActions,
      clashing_written hg.toHasNamedActions] at hperm
    exact List.perm_nil.1 hperm
  -- the blocks are read back as one, which is laid out as they were
  refine ⟨?_, hleftovers, fun backup stamp => ?_, ?_⟩
  · show (regenerate s responses g (some (regenerate s responses g existing).content)).content = _
    rw [regenerate_content, hold, regenerate_content]
    simp only [Option.getD_some, written_written hg.toHasNamedActions]
    unfold layout
    congr 2
    split_ifs with hnil
    · rw [hnil]
    · rw [← join_append_blankLine hnil]
      simp
  · rw [hleftovers]
    rfl
  · show List.countP _ _ = 0
    rw [hold]
    simp only [claim_eq]
    exact drifted_written hg.toHasNamedActions _

/-- An order service with one query. -/
private def orders : Group where
  owner := ⟨"shop".toList, "orders".toList⟩
  kind := .query
  hasUpload := true
  actions :=
    [⟨"findOrder".toList, [⟨⟨"ID".toList, true, false, false⟩, "orderId".toList⟩],
      "FindOrderResponse".toList, .query, ⟨"shop".toList, "orders".toList⟩⟩]

/-- An implementation whose parameters have changed since, with a helper and a constant. -/
private def ordersFile : Text :=
  ("package orders\n\nimport \"context\"\n\n// Looks the order up.\n" ++
    "func FindOrderQuery(ctx context.Context) (*model.FindOrderResponse, error) \x7b\n" ++
    "\treturn &response, nil\n\x7d\n\nconst limit = 10\n\nfunc helper() \x7b\x7d\n").toList

/-- A file with a helper and an implementation. -/
theorem regenerate_idempotent_orders :
    Plain ordersFile ∧
      (regenerate default .empty orders
        (some (regenerate default .empty orders (some ordersFile)).content)).content =
          (regenerate default .empty orders (some ordersFile)).content := by
  -- the kernel is slow to decode strings, so a list of characters takes the place of the text
  have hplain : Plain ordersFile := by
    unfold ordersFile
    rw [String.toList_append, String.toList_append]
    repeat rw [String.toList_ofList]
    decide
  have hnamed : WellNamed .empty orders := by
    refine ⟨⟨?_, by decide, by decide⟩, by decide, by decide⟩
    intro a ha
    obtain rfl := List.mem_singleton.1 ha
    exact ⟨by decide, by decide, by decide⟩
  have himports : ∀ path ∈ freshImports default orders.hasUpload, IsQuotable path := by decide
  refine ⟨hplain, (regenerate_idempotent hnamed himports ?_).1⟩
  intro content hcontent
  have hfile : ordersFile = content := Option.some.inj hcontent
  rw [← hfile]
  exact .inr hplain

end Scaffold.Service
