import Mathlib.Data.List.Flatten
import Scaffold.Project.Generation
import Scaffold.Proofs.Service.Grouping

/-!
# The order of the files of a project

Files are found in an order that a disk decides. Where no two actions have one name, nothing that is
made of the actions depends on it (`generate_of_perm`): whatever the files add goes into a table, and a
table does not remember what was put into it first. The combined schema is the exception; it takes the
files as they come.
-/

namespace Scaffold

open Schema Service

variable {files files' : List SchemaFile}

/-! ## Groups -/

namespace Service

/-- What is collected for a group does not depend on the order of its files. -/
theorem foldl_add_of_perm (h : files.Perm files')
    (hnames : ((files.flatMap SchemaFile.actions).map Action.name).Nodup) :
    files.foldl Collected.add ⟨false, .empty⟩ = files'.foldl Collected.add ⟨false, .empty⟩ := by
  rw [foldl_add, foldl_add, h.any_eq, ← Table.ofList_eq, ← Table.ofList_eq,
    Table.ofList_map_perm (h.flatMap_right _) hnames]

/-- Files in another order have the same groups, and these come in the same order. -/
theorem groups_of_perm (h : files.Perm files')
    (hnames : ((files.flatMap SchemaFile.actions).map Action.name).Nodup) :
    groups files = groups files' := by
  have htable : files.foldl addFile .empty = files'.foldl addFile .empty := by
    -- The tables of groups agree at every module and kind, since the files of each are permuted
    -- too.
    refine Table.ext_get? fun id => ?_
    have hgroup : (files.filter (idOf · = id)).Perm (files'.filter (idOf · = id)) := h.filter _
    have hgroupNames :
        (((files.filter (idOf · = id)).flatMap SchemaFile.actions).map Action.name).Nodup :=
      hnames.sublist ((List.filter_sublist.flatMap _).map _)
    have hempty : files.filter (idOf · = id) = [] ↔ files'.filter (idOf · = id) = [] := by
      rw [← List.length_eq_zero_iff, ← List.length_eq_zero_iff, hgroup.length_eq]
    rw [get?_addFiles, get?_addFiles]
    simp only [hempty]
    exact congrArg (ite _ _) (congrArg some (foldl_add_of_perm hgroup hgroupNames))
  rw [groups, groups, htable]

end Service

/-! ## Resolvers -/

namespace Output

/-- The imports are those of all modules, whichever comes first. -/
theorem moduleImports_of_perm (s : Setting) (h : files.Perm files') :
    moduleImports s files = moduleImports s files' :=
  congrArg Table.keys (Table.ofList_perm (h.map _) fun _ _ _ _ _ => rfl)

/-- The header of the resolver file does not depend on the order of the files. -/
theorem resolverHeader_of_perm {m m' : Model} (s : Setting) (h : m.files.Perm m'.files) :
    resolverHeader s m = resolverHeader s m' := by
  have hupload : m.hasUpload = m'.hasUpload := h.any_eq
  unfold resolverHeader
  rw [moduleImports_of_perm s h, hupload]

/-- Models with the same files in another order have the same resolver file. -/
theorem resolverFile_of_perm {m m' : Model} (s : Setting) (h : m.files.Perm m'.files)
    (hnames : (m.actions.map Action.name).Nodup) : resolverFile s m = resolverFile s m' := by
  have hactions : m.actions.Perm m'.actions := h.flatMap_right SchemaFile.actions
  have htable : m.actionTable = m'.actionTable := Table.ofList_map_perm hactions hnames
  unfold resolverFile
  rw [resolverHeader_of_perm s h, htable]

end Output

/-! ## Generated files -/

namespace Project

/-- Where no two actions have one name, models with the same responses and the same files in another
order have the same resolver file and the same groups. Over each old content, a group gets the same
service file and loses the same functions to its archive, so that a run stages and reports the same. -/
theorem generate_of_perm {m m' : Model} (hresponses : m.responses = m'.responses)
    (hfiles : m.files.Perm m'.files) (hnames : (m.actions.map Action.name).Nodup) (s : Setting) :
    Output.resolverFile s m = Output.resolverFile s m' ∧
      groups m.files = groups m'.files ∧
      (∀ existing archive stamp,
        (groups m.files).map (fun g =>
            let out := regenerate s m.responses g existing
            (out, archive? g.package archive out.leftovers stamp)) =
          (groups m'.files).map fun g =>
            let out := regenerate s m'.responses g existing
            (out, archive? g.package archive out.leftovers stamp)) ∧
      ∀ t stamp staging, renderServices t s m stamp staging = renderServices t s m' stamp staging := by
  have hgroups : groups m.files = groups m'.files := groups_of_perm hfiles hnames
  refine ⟨Output.resolverFile_of_perm s hfiles hnames, hgroups, fun existing archive stamp => ?_,
    fun t stamp staging => ?_⟩
  · rw [hgroups, hresponses]
  · rw [renderServices, renderServices, hgroups, hresponses]

/-- A file of queries with one action. -/
private def queryFile (package action : Text) (hasUpload : Bool) : SchemaFile where
  kind := .query
  owner := ⟨"shop".toList, package⟩
  path := ⟨action⟩
  moduleDir := "modules/shop/".toList ++ package
  hasUpload
  actions := [⟨action, [], "Done".toList, .query, ⟨"shop".toList, package⟩⟩]

/-- Two files of one module with one of another module between them, and the first of them last. -/
theorem generate_shop :
    let items := queryFile "catalog".toList "items".toList false
    let basket := queryFile "cart".toList "basket".toList true
    let prices := queryFile "catalog".toList "prices".toList true
    let s : Setting := ⟨⟨[]⟩, "api".toList, {}⟩
    let m : Model := ⟨[items, basket, prices], [], .empty⟩
    let m' : Model := ⟨[basket, prices, items], [], .empty⟩
    Output.resolverFile s m = Output.resolverFile s m' ∧
      groups m.files = groups m'.files ∧
      (∀ existing archive stamp,
        (groups m.files).map (fun g =>
            let out := regenerate s m.responses g existing
            (out, archive? g.package archive out.leftovers stamp)) =
          (groups m'.files).map fun g =>
            let out := regenerate s m'.responses g existing
            (out, archive? g.package archive out.leftovers stamp)) ∧
      ∀ t stamp staging, renderServices t s m stamp staging = renderServices t s m' stamp staging :=
  generate_of_perm rfl (by decide) (by decide) _

end Project

end Scaffold
