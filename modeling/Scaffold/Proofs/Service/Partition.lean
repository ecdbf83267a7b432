import Scaffold.Proofs.Service.Grouping

/-!
# The groups as a partition

Files of several modules and kinds may come in any order, and an action may be defined again, in its file
or in a later one. The groups make a partition of them (`groups_partition`): they come in the order of
their projects, packages and kinds, there is one for each module and kind that a file has, and it holds
the last definition of each name in the files of that module and kind, in the order of the names.
-/

namespace Scaffold.Service

open Schema

/-- The order of groups: by project, then by package, then by kind. -/
def GroupId.Before (id id' : GroupId) : Prop :=
  compare id.project id'.project = .lt ∨ id.project = id'.project ∧
    (compare id.package id'.package = .lt ∨ id.package = id'.package ∧ id.rank < id'.rank)

/-- Whether no later action of a list has the name of this one. -/
def IsLast (a : Action) (as : List Action) : Prop :=
  ∃ front back, as = front ++ a :: back ∧ ∀ b ∈ back, b.name ≠ a.name

/-- The actions of a module and a kind, file by file. -/
def actionsFor (id : GroupId) (files : List SchemaFile) : List Action :=
  (files.filter (idOf · = id)).flatMap SchemaFile.actions

/-- Groups come by project, package and kind. -/
theorem GroupId.before_iff {id id' : GroupId} : id.Before id' ↔ compare id id' = .lt := by
  have hlex : compare id id' = (compare id.project id'.project).then
      ((compare id.package id'.package).then (compare id.rank id'.rank)) := rfl
  rw [hlex, Ordering.then_eq_lt, Ordering.then_eq_lt, Std.compare_eq_iff_eq, Std.compare_eq_iff_eq,
    Nat.compare_eq_lt]
  rfl

/-- Groups come in increasing order. -/
theorem pairwise_before (files : List SchemaFile) :
    (groups files).Pairwise fun g g' => g.toGroupId.Before g'.toGroupId := by
  rw [groups, List.pairwise_map]
  exact (files.foldl addFile .empty).increasing.imp fun hlt => GroupId.before_iff.2 hlt

/-- There is one group for a module and a kind if a file has them. -/
theorem existsUnique_group_iff {files : List SchemaFile} {id : GroupId} :
    (∃! g, g ∈ groups files ∧ g.toGroupId = id) ↔ ∃ file ∈ files, idOf file = id := by
  constructor
  · rintro ⟨g, ⟨hg, rfl⟩, -⟩
    exact exists_file_of_mem_groups hg
  · rintro ⟨file, hfile, rfl⟩
    refine ⟨_, ⟨groupOf_mem_groups hfile, rfl⟩, ?_⟩
    rintro g ⟨hg, hid⟩
    rw [eq_groupOf_of_mem hg, hid]

/-- The groups of files partition what the files say. -/
theorem groups_partition (files : List SchemaFile) :
    (groups files).Pairwise (fun g g' => g.toGroupId.Before g'.toGroupId) ∧
    (∀ id, (∃! g, g ∈ groups files ∧ g.toGroupId = id) ↔ ∃ file ∈ files, idOf file = id) ∧
    ∀ g ∈ groups files,
      g.actions.Pairwise (fun a b => compare a.name b.name = .lt) ∧
      (∀ a, a ∈ g.actions ↔ IsLast a (actionsFor g.toGroupId files)) ∧
      (g.hasUpload ↔ ∃ file ∈ files, idOf file = g.toGroupId ∧ file.hasUpload) := by
  refine ⟨pairwise_before files, fun id => existsUnique_group_iff, fun g hg => ?_⟩
  rw [eq_groupOf_of_mem hg]
  refine ⟨?_, fun a => ?_, ?_⟩
  · exact Table.pairwise_values_ofList_map Action.name _
  · exact Table.mem_values_ofList_map_iff
  · simp [groupOf]

end Scaffold.Service
