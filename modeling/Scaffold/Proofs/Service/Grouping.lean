import Scaffold.Proofs.Table
import Scaffold.Service.Group

/-!
# What groups hold

The files of a project are taken one after the other, and each adds to the group of its module and kind.
In the end there is one group for each module and kind that a file has (`filter_groups`), and it holds
the last action of each name in the files of that module and kind (`eq_groupOf_of_mem`).
-/

namespace Scaffold.Service

open Std Schema

theorem rank_injective {k k' : Kind} (h : k.rank = k'.rank) : k = k' := by
  cases k <;> cases k' <;> first | rfl | cases h

instance : LawfulEqOrd GroupId where
  eq_of_compare {a b} h := by
    have hlex : ((compare a.project b.project).then
        ((compare a.package b.package).then (compare a.rank b.rank))) = .eq := h
    rw [Ordering.then_eq_eq, Ordering.then_eq_eq] at hlex
    obtain ⟨hproject, hpackage, hrank⟩ := hlex
    obtain ⟨⟨project, package⟩, kind⟩ := a
    obtain ⟨⟨project', package'⟩, kind'⟩ := b
    obtain rfl : project = project' := LawfulEqCmp.eq_of_compare hproject
    obtain rfl : package = package' := LawfulEqCmp.eq_of_compare hpackage
    obtain rfl : kind = kind' := rank_injective (LawfulEqCmp.eq_of_compare hrank)
    rfl

/-- The group that a file adds to. -/
def idOf (file : SchemaFile) : GroupId := ⟨file.owner, file.kind⟩

/-- What has been collected for a group after some files: what the files of the group have added. -/
theorem get?_addFiles (groups : Table GroupId Collected) (files : List SchemaFile) (id : GroupId) :
    (files.foldl addFile groups).get? id =
      if files.filter (idOf · = id) = [] then groups.get? id
      else some ((files.filter (idOf · = id)).foldl Collected.add
        ((groups.get? id).getD ⟨false, .empty⟩)) := by
  induction files generalizing groups with
  | nil => rfl
  | cons file files ih =>
    rw [List.foldl_cons, ih]
    by_cases hid : idOf file = id
    · have hget : (addFile groups file).get? id =
          some (((groups.get? id).getD ⟨false, .empty⟩).add file) := by
        subst hid
        exact Table.get?_put_self _ _ _
      rw [hget, List.filter_cons_of_pos (by simpa using hid), if_neg (List.cons_ne_nil _ _),
        List.foldl_cons, Option.getD_some]
      split_ifs with hrest
      · rw [hrest, List.foldl_nil]
      · rfl
    · have hget : (addFile groups file).get? id = groups.get? id :=
        Table.get?_put_of_ne _ _ (Ne.symm hid)
      rw [hget, List.filter_cons_of_neg (by simpa using hid)]

/-- What files add: the mark for uploads if one of them has it, and all their actions. -/
theorem foldl_add (c : Collected) (files : List SchemaFile) :
    files.foldl Collected.add c =
      ⟨c.hasUpload || files.any SchemaFile.hasUpload,
        c.actions.putAll ((files.flatMap SchemaFile.actions).map fun a => (a.name, a))⟩ := by
  induction files generalizing c with
  | nil => simp [Table.putAll]
  | cons file files ih =>
    rw [List.foldl_cons, ih]
    simp [Collected.add, Table.putAll, Bool.or_assoc, List.foldl_map]

/-- The group of some files of one module and kind: of the actions with one name, it has the last. -/
def groupOf (id : GroupId) (files : List SchemaFile) : Group where
  toGroupId := id
  hasUpload := files.any SchemaFile.hasUpload
  actions := (Table.ofList ((files.flatMap SchemaFile.actions).map fun a => (a.name, a))).values

/-- The groups of a module and a kind: there is one if a file has them, and it is that of all these
files. -/
theorem filter_groups (files : List SchemaFile) (id : GroupId) :
    (groups files).filter (·.toGroupId = id) =
      if files.filter (idOf · = id) = [] then []
      else [groupOf id (files.filter (idOf · = id))] := by
  have hrows : (groups files).filter (·.toGroupId = id) =
      ((files.foldl addFile .empty).rows.filter (·.1 = id)).map fun row =>
        { toGroupId := row.1, hasUpload := row.2.hasUpload, actions := row.2.actions.values } := by
    rw [groups, List.filter_map]
    rfl
  rw [hrows, Table.filter_rows, get?_addFiles]
  split_ifs
  · rfl
  · rw [foldl_add]
    rfl

/-- Each group is made of the files of its module and kind. -/
theorem eq_groupOf_of_mem {files : List SchemaFile} {g : Group} (h : g ∈ groups files) :
    g = groupOf g.toGroupId (files.filter (idOf · = g.toGroupId)) := by
  have hmem : g ∈ (groups files).filter (·.toGroupId = g.toGroupId) :=
    List.mem_filter.2 ⟨h, decide_eq_true rfl⟩
  rw [filter_groups] at hmem
  split_ifs at hmem
  · exact absurd hmem List.not_mem_nil
  · exact List.mem_singleton.1 hmem

/-- The module and the kind of each file have a group. -/
theorem groupOf_mem_groups {files : List SchemaFile} {file : SchemaFile} (h : file ∈ files) :
    groupOf (idOf file) (files.filter (idOf · = idOf file)) ∈ groups files := by
  have hne : files.filter (idOf · = idOf file) ≠ [] :=
    List.ne_nil_of_mem (List.mem_filter.2 ⟨h, decide_eq_true rfl⟩)
  have hgroup := filter_groups files (idOf file)
  rw [if_neg hne] at hgroup
  exact (List.mem_filter.1 (hgroup ▸ List.mem_singleton_self _)).1

/-- Each group has a file. -/
theorem exists_file_of_mem_groups {files : List SchemaFile} {g : Group} (h : g ∈ groups files) :
    ∃ file ∈ files, idOf file = g.toGroupId := by
  have hne : (groups files).filter (·.toGroupId = g.toGroupId) ≠ [] :=
    List.ne_nil_of_mem (List.mem_filter.2 ⟨h, decide_eq_true rfl⟩)
  rw [filter_groups] at hne
  split_ifs at hne with hfiles
  · exact absurd rfl hne
  · obtain ⟨file, hfile⟩ := List.exists_mem_of_ne_nil _ hfiles
    obtain ⟨hmem, hid⟩ := List.mem_filter.1 hfile
    exact ⟨file, hmem, of_decide_eq_true hid⟩

end Scaffold.Service
