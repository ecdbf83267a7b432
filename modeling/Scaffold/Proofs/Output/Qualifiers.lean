import Scaffold.Proofs.Output.Methods
import Scaffold.Proofs.Project.ModuleDirectory

/-!
# Qualifiers

The resolver file imports each module by its whole directory, but its methods call into a module by the
name of the package alone. In Go this name is the last part of the import path. Where all schema files
stand straight, the module of an action is always imported under the qualifier of its method
(`mem_importsNamed_iff`); it is the only module under that name exactly if no other module with a schema
file has a package of the same name (`qualifier_determines_iff`).
-/

namespace Scaffold.Output

open Text Naming Schema Service Project

/-- What a file calls an imported package, if the import does not say otherwise. -/
def importName (path : Text) : Text := ((parts '/' path).getLast?).getD []

/-- The modules that the resolver file imports under a name. -/
def importsNamed (s : Setting) (files : List SchemaFile) (name : Text) : List Text :=
  (moduleImports s files).filter (importName · = name)

/-- Whether a method of the resolver file calls into a module. -/
def IsCalled (m : Model) (owner : ModuleRef) : Prop := ∃ a ∈ m.actionTable.values, a.owner = owner

/-- Whether the schema files of queries and mutations that were found stand straight in their packages. -/
def AllStraight (paths : Paths) (files : List Found) : Prop :=
  ∀ kind f, (kind, f) ∈ schemaFiles files → kind ≠ .subscription → IsStraight paths f.relative

/-- A list without duplicates has one element if all its elements are equal and there is one. -/
private theorem exists_eq_singleton_iff {α : Type} {l : List α} (hl : l.Nodup) :
    (∃ a, l = [a]) ↔ l ≠ [] ∧ ∀ a ∈ l, ∀ b ∈ l, a = b := by
  constructor
  · rintro ⟨a, rfl⟩
    simp
  · rintro ⟨hne, hall⟩
    obtain ⟨a, rest, rfl⟩ := List.exists_cons_of_ne_nil hne
    refine ⟨a, ?_⟩
    cases rest with
    | nil => rfl
    | cons b rest =>
      have hab := hall a List.mem_cons_self b (List.mem_cons_of_mem a List.mem_cons_self)
      exact absurd (hab ▸ List.mem_cons_self) (List.nodup_cons.1 hl).1

/-- Nothing is imported twice under a name. -/
theorem nodup_importsNamed (s : Setting) (files : List SchemaFile) (name : Text) :
    (importsNamed s files name).Nodup :=
  (Table.nodup_keys _).filter _

/-! ## Directories and their names -/

section

variable {s : Setting} {relative dir : Text} {owner : ModuleRef}
  (h : layout? s.config.paths.modulesDir s.config.paths.schemasDir relative = some (owner, dir))

include h

/-- The directory of the services of a module is imported under the name of its package. -/
theorem importName_serviceDir :
    importName (s.moduleImport (serviceDir s.config.paths owner)) = owner.package := by
  rw [importName, Setting.moduleImport, parts_append_separator, serviceDir,
    parts_join (names_of_layout? h), List.getLast?_append_of_ne_nil _ (by simp)]
  rfl

/-- Different modules are imported from different directories. -/
theorem moduleImport_serviceDir_inj {relative' dir' : Text} {owner' : ModuleRef}
    (h' : layout? s.config.paths.modulesDir s.config.paths.schemasDir relative' = some (owner', dir')) :
    s.moduleImport (serviceDir s.config.paths owner) =
        s.moduleImport (serviceDir s.config.paths owner') ↔ owner = owner' := by
  refine ⟨fun heq => ?_, fun heq => by rw [heq]⟩
  have hdir : serviceDir s.config.paths owner = serviceDir s.config.paths owner' := by
    simpa [Setting.moduleImport] using heq
  have hnames := congrArg (parts '/') hdir
  rw [serviceDir, serviceDir, parts_join (names_of_layout? h), parts_join (names_of_layout? h')] at hnames
  obtain ⟨project, package⟩ := owner
  obtain ⟨project', package'⟩ := owner'
  simpa using hnames

end

/-! ## Methods and imports -/

variable {t : Tree} {s : Setting} {files : List Found} {m : Model}
  (h : readModel t s.config.paths files = .ok m)

include h

omit h in
/-- The qualifier of a call is the package of the module. -/
theorem qualifier_of_method? {a : Action} {x : Method} (hx : method? a = some x) :
    x.qualifier = a.owner.package :=
  (method?_eq_some_iff.1 hx).2.2.2.2.1

/-- What is imported under a name: the modules whose package has that name. -/
theorem mem_importsNamed_iff (hstraight : AllStraight s.config.paths files) {name path : Text} :
    path ∈ importsNamed s m.files name ↔ ∃ file ∈ m.files, file.owner.package = name ∧
      path = s.moduleImport (serviceDir s.config.paths file.owner) := by
  have hplace {file : SchemaFile} (hfile : file ∈ m.files) :
      file.moduleDir = serviceDir s.config.paths file.owner ∧
        importName (s.moduleImport (serviceDir s.config.paths file.owner)) = file.owner.package := by
    obtain ⟨hkind, f, hfound, hlayout⟩ := exists_found_readModel h hfile
    exact ⟨(layout?_eq_serviceDir_iff hlayout).2 (hstraight _ f hfound hkind),
      importName_serviceDir hlayout⟩
  rw [importsNamed, List.mem_filter, decide_eq_true_iff, moduleImports, Table.mem_keys_ofList,
    List.map_map, List.mem_map]
  constructor
  · rintro ⟨⟨file, hfile, rfl⟩, hname⟩
    obtain ⟨hdir, hpackage⟩ := hplace hfile
    simp only [Function.comp_apply, hdir] at hname ⊢
    exact ⟨file, hfile, hpackage.symm.trans hname, rfl⟩
  · rintro ⟨file, hfile, hname, rfl⟩
    obtain ⟨hdir, hpackage⟩ := hplace hfile
    exact ⟨⟨file, hfile, by rw [Function.comp_apply, hdir]⟩, hpackage.trans hname⟩

/-- A module that is called has a schema file, and its method calls it by its package. -/
theorem exists_method_of_isCalled {owner : ModuleRef} (hcalled : IsCalled m owner) :
    ∃ file ∈ m.files, file.owner = owner ∧ ∃ x ∈ methods m, x.qualifier = owner.package := by
  obtain ⟨a, ha, rfl⟩ := hcalled
  have hmem : a ∈ m.actions := Table.mem_of_mem_values_ofList_map ha
  obtain ⟨file, hfile, -, howner, -⟩ := exists_file_of_mem_actions h hmem
  obtain ⟨x, hx⟩ := exists_method? (kind_ne_subscription h hmem)
  refine ⟨file, hfile, howner.symm, x, List.mem_filterMap.2 ⟨a, ha, hx⟩,
    qualifier_of_method? hx⟩

/-- Two methods with one qualifier call into one module exactly if no two modules that are called have
packages of one name. -/
theorem qualifier_inj_iff :
    (∀ a ∈ m.actionTable.values, ∀ b ∈ m.actionTable.values, ∀ x ∈ method? a, ∀ y ∈ method? b,
        x.qualifier = y.qualifier → a.owner = b.owner) ↔
      ∀ owner other, IsCalled m owner → IsCalled m other → owner.package = other.package →
        owner = other := by
  constructor
  · rintro hinj _ _ ⟨a, ha, rfl⟩ ⟨b, hb, rfl⟩ hpackage
    obtain ⟨x, hx⟩ := exists_method? (kind_ne_subscription h (Table.mem_of_mem_values_ofList_map ha))
    obtain ⟨y, hy⟩ := exists_method? (kind_ne_subscription h (Table.mem_of_mem_values_ofList_map hb))
    exact hinj a ha b hb x hx y hy (by rw [qualifier_of_method? hx, qualifier_of_method? hy, hpackage])
  · intro howner a ha b hb x hx y hy hqualifiers
    rw [qualifier_of_method? hx, qualifier_of_method? hy] at hqualifiers
    exact howner a.owner b.owner ⟨a, ha, rfl⟩ ⟨b, hb, rfl⟩ hqualifiers

/-- Where all schema files stand straight, each qualifier stands for one import exactly if no module that
is called shares the name of its package with another module. -/
theorem exists_importsNamed_eq_iff (hstraight : AllStraight s.config.paths files) :
    (∀ x ∈ methods m, ∃ path, importsNamed s m.files x.qualifier = [path]) ↔
      ∀ owner, IsCalled m owner → ∀ file ∈ m.files, file.owner.package = owner.package →
        file.owner = owner := by
  have hmem {file : SchemaFile} (hfile : file ∈ m.files) {name : Text}
      (hname : file.owner.package = name) :
      s.moduleImport (serviceDir s.config.paths file.owner) ∈ importsNamed s m.files name :=
    (mem_importsNamed_iff h hstraight).2 ⟨file, hfile, hname, rfl⟩
  -- a module is imported from the one directory of its services, so that two imports are two modules
  constructor
  · intro hsingle owner hcalled other hother hpackage
    obtain ⟨file, hfile, rfl, x, hx, hqualifier⟩ := exists_method_of_isCalled h hcalled
    have hall := ((exists_eq_singleton_iff (nodup_importsNamed s m.files x.qualifier)).1
      (hsingle x hx)).2
    rw [hqualifier] at hall
    obtain ⟨-, _, -, hlayout⟩ := exists_found_readModel h hfile
    obtain ⟨-, _, -, hlayout'⟩ := exists_found_readModel h hother
    exact (moduleImport_serviceDir_inj hlayout' hlayout).1
      (hall _ (hmem hother hpackage) _ (hmem hfile rfl))
  · intro howner x hx
    obtain ⟨a, ha, hmethod⟩ := List.mem_filterMap.1 hx
    have hcalled : IsCalled m a.owner := ⟨a, ha, rfl⟩
    obtain ⟨file, hfile, hfileOwner, -⟩ := exists_method_of_isCalled h hcalled
    rw [qualifier_of_method? hmethod, exists_eq_singleton_iff (nodup_importsNamed _ _ _)]
    refine ⟨List.ne_nil_of_mem (hmem hfile (by rw [hfileOwner])), fun path hpath path' hpath' => ?_⟩
    obtain ⟨other, hother, hpackage, rfl⟩ := (mem_importsNamed_iff h hstraight).1 hpath
    obtain ⟨other', hother', hpackage', rfl⟩ := (mem_importsNamed_iff h hstraight).1 hpath'
    rw [howner _ hcalled other hother hpackage, howner _ hcalled other' hother' hpackage']

omit h

/-- Two methods with one qualifier call into one module exactly if no two modules that are called have
packages of one name. Where all schema files stand straight, the qualifier of a method names the directory
that the services of its module are in; and each qualifier names one import only exactly if no module that
is called shares the name of its package with another module that has a schema file. -/
theorem qualifier_determines_iff (h : readModel t s.config.paths files = .ok m) :
    ((∀ a ∈ m.actionTable.values, ∀ b ∈ m.actionTable.values, ∀ x ∈ method? a, ∀ y ∈ method? b,
        x.qualifier = y.qualifier → a.owner = b.owner) ↔
      ∀ owner other, IsCalled m owner → IsCalled m other → owner.package = other.package →
        owner = other) ∧
    (AllStraight s.config.paths files →
      (∀ a ∈ m.actionTable.values, ∀ x ∈ method? a,
        s.moduleImport (serviceDir s.config.paths a.owner) ∈ importsNamed s m.files x.qualifier) ∧
      ((∀ x ∈ methods m, ∃ path, importsNamed s m.files x.qualifier = [path]) ↔
        ∀ owner, IsCalled m owner → ∀ file ∈ m.files, file.owner.package = owner.package →
          file.owner = owner)) := by
  refine ⟨qualifier_inj_iff h, fun hstraight => ⟨fun a ha x hx => ?_,
    exists_importsNamed_eq_iff h hstraight⟩⟩
  obtain ⟨file, hfile, howner, -⟩ := exists_method_of_isCalled h ⟨a, ha, rfl⟩
  refine (mem_importsNamed_iff h hstraight).2 ⟨file, hfile, ?_, by rw [howner]⟩
  rw [qualifier_of_method? hx, howner]

private def shopUser : PlainFile where
  kind := .query
  owner := ⟨"shop".toList, "user".toList⟩
  dir := "modules/shop/user".toList
  place := "modules/shop/user/user_query.graphqls".toList
  interior := "\n  getUser: UserResponse!\n".toList
  named := [("getUser".toList, "UserResponse".toList)]

private def adminStaff : PlainFile where
  kind := .query
  owner := ⟨"admin".toList, "staff".toList⟩
  dir := "modules/admin/staff".toList
  place := "modules/admin/staff/user_query.graphqls".toList
  interior := "\n  getStaff: UserResponse!\n".toList
  named := [("getStaff".toList, "UserResponse".toList)]

/-- A schema file of another project whose package has the name of a package of the first. -/
private def adminUser : PlainFile where
  kind := .query
  owner := ⟨"admin".toList, "user".toList⟩
  dir := "modules/admin/user".toList
  place := "modules/admin/user/user_query.graphqls".toList
  interior := "\n  getStaff: UserResponse!\n".toList
  named := [("getStaff".toList, "UserResponse".toList)]

/-- Two projects with one module each. -/
private def projectsTree (package admin shop : Text) : Tree :=
  ⟨[("modules".toList, .directory
    [("admin".toList, .directory [(package, .directory
        [("user_query.graphqls".toList, .file (.text admin))])]),
      ("shop".toList, .directory [("user".toList, .directory
        [("user_query.graphqls".toList, .file (.text shop))])])])]⟩

/-- The tree with two projects is read as their two files. -/
private theorem readModel_projects {f : PlainFile} (h : f = adminStaff ∨ f = adminUser) :
    readModel (projectsTree f.owner.package f.content shopUser.content) {}
      [f.found, shopUser.found] = .ok (PlainFile.model [f, shopUser]) := by
  have hstaff (admin shop : Text) :
      (projectsTree "staff".toList admin shop).readText
          ⟨"modules/admin/staff/user_query.graphqls".toList⟩ = .ok admin ∧
        (projectsTree "staff".toList admin shop).readText
          ⟨"modules/shop/user/user_query.graphqls".toList⟩ = .ok shop :=
    ⟨by cbv, by cbv⟩
  have huser (admin shop : Text) :
      (projectsTree "user".toList admin shop).readText
          ⟨"modules/admin/user/user_query.graphqls".toList⟩ = .ok admin ∧
        (projectsTree "user".toList admin shop).readText
          ⟨"modules/shop/user/user_query.graphqls".toList⟩ = .ok shop :=
    ⟨by cbv, by cbv⟩
  rcases h with rfl | rfl
  · exact PlainFile.readModel_eq_ok rfl rfl (by decide)
      (List.forall_mem_cons.2 ⟨(hstaff _ _).1, List.forall_mem_singleton.2 (hstaff _ _).2⟩)
  · exact PlainFile.readModel_eq_ok rfl rfl (by decide)
      (List.forall_mem_cons.2 ⟨(huser _ _).1, List.forall_mem_singleton.2 (huser _ _).2⟩)

private def apiSetting : Setting := ⟨⟨[]⟩, "example.com/api".toList, {}⟩

/-- Two projects whose modules have different packages. -/
theorem qualifier_determines_iff_staff :
    let files := [adminStaff.found, shopUser.found]
    let m := PlainFile.model [adminStaff, shopUser]
    readModel (projectsTree "staff".toList adminStaff.content shopUser.content) {} files = .ok m ∧
      (∀ a ∈ m.actionTable.values, ∀ b ∈ m.actionTable.values, ∀ x ∈ method? a, ∀ y ∈ method? b,
        x.qualifier = y.qualifier → a.owner = b.owner) ∧
      AllStraight {} files ∧
      ∀ x ∈ methods m, ∃ path, importsNamed apiSetting m.files x.qualifier = [path] := by
  intro files m
  have hread : readModel _ apiSetting.config.paths files = .ok m := readModel_projects (.inl rfl)
  have hstraight : AllStraight {} files := by
    have hfound : ∀ kf ∈ schemaFiles files, IsStraight {} kf.2.relative := by decide
    exact fun kind f hf _ => hfound (kind, f) hf
  obtain ⟨hinj, himports⟩ := qualifier_determines_iff hread
  refine ⟨hread, hinj.2 ?_, hstraight, (himports hstraight).2.2 ?_⟩
  · have hpackages : ∀ a ∈ m.actionTable.values, ∀ b ∈ m.actionTable.values,
        a.owner.package = b.owner.package → a.owner = b.owner := by
      decide
    rintro _ _ ⟨a, ha, rfl⟩ ⟨b, hb, rfl⟩
    exact hpackages a ha b hb
  · have hpackages : ∀ a ∈ m.actionTable.values, ∀ file ∈ m.files,
        file.owner.package = a.owner.package → file.owner = a.owner := by
      decide
    rintro _ ⟨a, ha, rfl⟩
    exact hpackages a ha

/-- Methods for modules of two projects that have packages of one name call into them by one qualifier, and
the resolver file imports both modules under that name. -/
theorem qualifier_names_two_modules :
    let m := PlainFile.model [adminUser, shopUser]
    readModel (projectsTree "user".toList adminUser.content shopUser.content) {}
        [adminUser.found, shopUser.found] = .ok m ∧
      (∃ a ∈ m.actionTable.values, ∃ b ∈ m.actionTable.values, ∃ x ∈ method? a, ∃ y ∈ method? b,
        x.qualifier = y.qualifier ∧ a.owner ≠ b.owner) ∧
      importsNamed apiSetting m.files "user".toList =
        ["example.com/api/modules/admin/user".toList, "example.com/api/modules/shop/user".toList] :=
  ⟨readModel_projects (.inr rfl), by decide, by decide⟩

end Scaffold.Output
