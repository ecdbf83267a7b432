import Mathlib.Data.List.Permutation
import Scaffold.Proofs.Project.Reading
import Scaffold.Proofs.Project.Rendering
import Scaffold.Proofs.Text.Splitting

/-!
# The directory of a module

A module has two directories. The resolver imports the one that is read off the place of a schema file:
all directories on the way to the file but those for schema files. The services are written into the one
that is put together from the project and the package of the module. They are one directory exactly if
the schema file stands *straight* in its package (`IsStraight`): below the package there are only
directories for schema files, and the package itself is not below one. If all files stand straight, a run
writes a service into each directory that its resolver imports (`moduleDir_agrees_iff`).
-/

namespace Scaffold

open Text

/-! ## Joining paths -/

namespace Path

variable {p : Path} {a b : Text}

/-- Going on from a path goes on from its last part, if that is a name. -/
theorem join_join (ha : a ≠ []) (hlast : a.getLast? ≠ some '/') (hb : b.head? ≠ some '/') :
    (p.join a).join b = p.join (a ++ '/' :: b) := by
  obtain ⟨c, rest, rfl⟩ := List.exists_cons_of_ne_nil ha
  have hend (front : Text) : (front ++ c :: rest).getLast? ≠ some '/' := by
    rwa [List.getLast?_append_of_ne_nil _ ha]
  have hgoes {q : Path} (hne : q.text ≠ []) (hq : q.text.getLast? ≠ some '/') :
      q.join b = ⟨q.text ++ '/' :: b⟩ := by
    rw [join, if_neg hb, if_neg (by simp [hne, hq])]
  -- in all three cases of joining, what is joined stands at the end
  have htext : ∃ front, p.join (c :: rest) = ⟨front ++ c :: rest⟩ ∧
      p.join (c :: rest ++ '/' :: b) = ⟨front ++ (c :: rest ++ '/' :: b)⟩ := by
    unfold join
    by_cases habsolute : c = '/'
    · exact ⟨[], by simp [habsolute], by simp [habsolute]⟩
    · by_cases hbare : p.text = [] ∨ p.text.getLast? = some '/'
      · exact ⟨p.text, by simp [habsolute, hbare], by simp [habsolute, hbare]⟩
      · exact ⟨p.text ++ ['/'], by simp [habsolute, hbare], by simp [habsolute, hbare]⟩
  obtain ⟨front, hfirst, hboth⟩ := htext
  rw [hfirst, hboth, hgoes (by simp) (hend front), List.append_assoc]

/-- From one path, different names lead to different paths. -/
theorem join_inj (ha : a.head? ≠ some '/') (hb : b.head? ≠ some '/') :
    p.join a = p.join b ↔ a = b := by
  unfold join
  rw [if_neg ha, if_neg hb]
  split_ifs <;> simp

end Path

namespace Schema

/-! ## The place of a schema file -/

section

variable {modulesDir schemasDir relative dir : Text} {owner : ModuleRef}

/-- What is read off the place of a schema file. -/
theorem layout?_eq_some_iff : layout? modulesDir schemasDir relative = some (owner, dir) ↔
    ∃ below file, parts '/' relative =
        [modulesDir, owner.project, owner.package] ++ (below ++ [file]) ∧
      dir = join ['/']
        (([modulesDir, owner.project, owner.package] ++ below).filter (· ≠ schemasDir)) := by
  unfold layout?
  constructor
  · intro h
    split at h
    · next top project package first rest hparts =>
      split_ifs at h with htop
      obtain ⟨rfl, rfl⟩ := Prod.mk.inj (Option.some.inj h)
      subst htop
      have hrest := List.dropLast_append_getLast (List.cons_ne_nil first rest)
      exact ⟨(first :: rest).dropLast, _, by rw [hparts, hrest]; rfl, rfl⟩
    · cases h
  · rintro ⟨below, file, hparts, rfl⟩
    obtain ⟨first, rest, hrest⟩ : ∃ first rest, below ++ [file] = first :: rest :=
      List.exists_cons_of_ne_nil (by simp)
    have hdrop : (first :: rest).dropLast = below := by rw [← hrest, List.dropLast_concat]
    rw [hrest] at hparts
    simp only [hparts, List.cons_append, List.nil_append, if_true, hdrop]

end

/-- The directory that the services of a module are in, seen from the root of the project. -/
def serviceDir (paths : Paths) (owner : ModuleRef) : Text :=
  join ['/'] [paths.modulesDir, owner.project, owner.package]

/-- Whether a file stands straight in its package: only directories for schema files are between the
package and the file, and neither the package nor what it is in is one. -/
structure IsStraight (paths : Paths) (relative : Text) : Prop where
  package : ∀ dir ∈ (parts '/' relative).take 3, dir ≠ paths.schemasDir
  below : ∀ dir ∈ ((parts '/' relative).drop 3).dropLast, dir = paths.schemasDir

instance (paths : Paths) (relative : Text) : Decidable (IsStraight paths relative) :=
  decidable_of_iff ((∀ dir ∈ (parts '/' relative).take 3, dir ≠ paths.schemasDir) ∧
    ∀ dir ∈ ((parts '/' relative).drop 3).dropLast, dir = paths.schemasDir)
    ⟨fun h => ⟨h.1, h.2⟩, fun h => ⟨h.1, h.2⟩⟩

/-- A filter keeps the first list exactly if it holds of all of it and of nothing in the second. -/
private theorem filter_append_eq_iff {α : Type} {p : α → Bool} {xs ys : List α} :
    (xs ++ ys).filter p = xs ↔ (∀ x ∈ xs, p x) ∧ ∀ y ∈ ys, ¬p y := by
  rw [List.filter_append]
  constructor
  · intro h
    have hxs : ∀ x ∈ xs, p x := by
      intro x hx
      rw [← h, List.mem_append] at hx
      exact hx.elim (fun hx => (List.mem_filter.1 hx).2) fun hx => (List.mem_filter.1 hx).2
    rw [List.filter_eq_self.2 hxs, List.append_right_eq_self] at h
    exact ⟨hxs, List.filter_eq_nil_iff.1 h⟩
  · rintro ⟨hxs, hys⟩
    rw [List.filter_eq_self.2 hxs, List.filter_eq_nil_iff.2 hys, List.append_nil]

/-- What stands between the slashes of a place are names. -/
private theorem of_mem_place {names below : List Text} {relative file : Text}
    (hparts : parts '/' relative = names ++ (below ++ [file])) :
    ∀ name ∈ names ++ below, name ≠ [] ∧ '/' ∉ name := by
  intro name hname
  refine of_mem_parts (s := relative) ?_
  rw [hparts, ← List.append_assoc]
  exact List.mem_append_left _ hname

/-- Names that are joined by slashes do not lead to the root. -/
private theorem head?_join {names : List Text} (h : ∀ name ∈ names, name ≠ [] ∧ '/' ∉ name) :
    (join ['/'] names).head? ≠ some '/' := by
  cases names with
  | nil => simp [Text.join]
  | cons name names =>
    obtain ⟨⟨hne, hslash⟩, -⟩ := List.forall_mem_cons.1 h
    obtain ⟨c, rest, rfl⟩ := List.exists_cons_of_ne_nil hne
    have hc : c ≠ '/' := fun heq => hslash (heq ▸ List.mem_cons_self)
    cases names <;> simp [Text.join, List.intercalate_cons_cons, hc]

section

variable {paths : Paths} {relative dir : Text} {owner : ModuleRef}
  (h : layout? paths.modulesDir paths.schemasDir relative = some (owner, dir))

include h

/-- The names of a module are the names of directories. -/
theorem names_of_layout? : ∀ name ∈ [paths.modulesDir, owner.project, owner.package],
    name ≠ [] ∧ '/' ∉ name := by
  obtain ⟨below, file, hparts, -⟩ := layout?_eq_some_iff.1 h
  exact fun name hname => of_mem_place hparts name (List.mem_append_left _ hname)

/-- The directory that is read off a place is that of the services exactly if the file stands straight. -/
theorem layout?_eq_serviceDir_iff : dir = serviceDir paths owner ↔ IsStraight paths relative := by
  have hnames := names_of_layout? h
  obtain ⟨below, file, hparts, rfl⟩ := layout?_eq_some_iff.1 h
  have hall : ∀ name ∈ ([paths.modulesDir, owner.project, owner.package] ++ below).filter
      (· ≠ paths.schemasDir), name ≠ [] ∧ '/' ∉ name :=
    fun name hname => of_mem_place hparts name (List.mem_filter.1 hname).1
  have htake : (parts '/' relative).take 3 = [paths.modulesDir, owner.project, owner.package] := by
    rw [hparts]
    rfl
  have hdrop : ((parts '/' relative).drop 3).dropLast = below := by
    rw [hparts]
    exact List.dropLast_concat
  -- joining is undone by `parts`, as no name is empty or has a slash
  calc join ['/'] _ = serviceDir paths owner
      ↔ ([paths.modulesDir, owner.project, owner.package] ++ below).filter (· ≠ paths.schemasDir) =
          [paths.modulesDir, owner.project, owner.package] := by
        refine ⟨fun hjoin => ?_, fun hlist => congrArg _ hlist⟩
        rw [← parts_join hall, hjoin, serviceDir, parts_join hnames]
    _ ↔ IsStraight paths relative := by
        rw [filter_append_eq_iff]
        constructor
        · rintro ⟨hpackage, hbelow⟩
          exact ⟨by simpa [htake] using hpackage, by simpa [hdrop] using hbelow⟩
        · rintro ⟨hpackage, hbelow⟩
          rw [htake] at hpackage
          rw [hdrop] at hbelow
          exact ⟨by simpa using hpackage, by simpa using hbelow⟩

/-- The services of a module are in its directory. -/
theorem moduleDir_eq_join {s : Setting} (hs : s.config.paths = paths) :
    Service.moduleDir s owner = s.root.join (serviceDir paths owner) := by
  obtain ⟨hmodules, hproject, hpackage⟩ :
      (paths.modulesDir ≠ [] ∧ '/' ∉ paths.modulesDir) ∧
        (owner.project ≠ [] ∧ '/' ∉ owner.project) ∧ owner.package ≠ [] ∧ '/' ∉ owner.package := by
    simpa using names_of_layout? h
  -- names of directories hold no slash, so that joining them one by one is joining them at once
  have hhead {name : Text} (hname : '/' ∉ name) : name.head? ≠ some '/' :=
    fun heq => hname (List.mem_of_mem_head? heq)
  have hlast {name : Text} (hname : '/' ∉ name) : name.getLast? ≠ some '/' :=
    fun heq => hname (List.mem_of_getLast? heq)
  have hboth : (paths.modulesDir ++ '/' :: owner.project).getLast? ≠ some '/' := by
    have hcons := List.append_ne_nil_of_right_ne_nil ['/'] hproject.1
    rw [← List.singleton_append, List.getLast?_append_of_ne_nil _ hcons,
      List.getLast?_append_of_ne_nil _ hproject.1]
    exact hlast hproject.2
  rw [Service.moduleDir, hs, Path.join_join hmodules.1 (hlast hmodules.2) (hhead hproject.2),
    Path.join_join (by simp) hboth (hhead hpackage.2)]
  simp [serviceDir, Text.join, List.intercalate_cons_cons]

/-- Both directories are one directory of the project exactly if the file stands straight. -/
theorem join_eq_moduleDir_iff {s : Setting} (hs : s.config.paths = paths) :
    s.root.join dir = Service.moduleDir s owner ↔ IsStraight paths relative := by
  have hservice : (serviceDir paths owner).head? ≠ some '/' := head?_join (names_of_layout? h)
  have hdir : dir.head? ≠ some '/' := by
    obtain ⟨below, file, hparts, rfl⟩ := layout?_eq_some_iff.1 h
    exact head?_join fun name hname => of_mem_place hparts name (List.mem_filter.1 hname).1
  rw [moduleDir_eq_join h hs, Path.join_inj hdir hservice, layout?_eq_serviceDir_iff h]

end

end Schema

/-! ## What a run stages -/

namespace Staging

variable {s : Staging} {p q : Path}

/-- What is staged stays staged. -/
theorem isSome_get?_push (content : Text) (h : (s.get? q).isSome) :
    ((s.push p content).get? q).isSome := by
  by_cases hsame : p.same q
  · have hcongr (s : Staging) : s.get? q = s.get? p := by
      have hcomponents : p.components = q.components := by simpa [Path.same] using hsame
      simp only [get?, Path.same, hcomponents]
    rw [hcongr, ← Option.isSome_map, get?_push_self]
    rfl
  · rwa [get?_push_of_not_same s content hsame]

theorem isSome_get?_push_self (s : Staging) (p : Path) (content : Text) :
    ((s.push p content).get? p).isSome := by
  rw [← Option.isSome_map, get?_push_self]
  rfl

/-- What was staged stays staged while more is. -/
theorem isSome_get?_pushAll (as : List Artifact) (s : Staging)
    (h : (∃ a ∈ as, a.path = q) ∨ (s.get? q).isSome) :
    ((as.foldl (fun s a => s.push a.path a.content) s).get? q).isSome := by
  induction as generalizing s with
  | nil => simpa using h
  | cons a as ih =>
    refine ih (s.push a.path a.content) ?_
    rcases h with ⟨b, hb, hpath⟩ | h
    · rcases List.mem_cons.1 hb with rfl | hb
      · exact .inr (hpath ▸ isSome_get?_push_self s b.path b.content)
      · exact .inl ⟨b, hb, hpath⟩
    · exact .inr (isSome_get?_push a.content h)

end Staging

namespace Project

open Schema Service

variable {t : Tree} {root : Path} {config : Config} {stamp : Text} {m : Model} {p : Plan}

/-- A run stages a service file for each file of its model. -/
theorem isSome_service_of_render {s : Setting} (hs : setting t root config = .ok s)
    (h : render t root config stamp m = .ok p) :
    ∀ file ∈ m.files, (p.staging.get? (servicePath s (idOf file))).isSome := by
  intro file hfile
  obtain ⟨rendered, hrendered, hstaging⟩ := of_render hs h
  obtain ⟨r, hr, hrender, -⟩ := exists_of_forall₂ hrendered hrendered (groupOf_mem_groups hfile)
  obtain ⟨existing, -, hservice, -⟩ := of_renderGroup hrender
  have hmem : r.service ∈ projectArtifacts s m ++ rendered.flatMap RenderedGroup.artifacts :=
    List.mem_append_right _ (List.mem_flatMap.2 ⟨r, hr, by simp [RenderedGroup.artifacts]⟩)
  rw [hstaging]
  exact Staging.isSome_get?_pushAll _ _ (.inl ⟨r.service, hmem, by rw [hservice]; rfl⟩)

/-- The directory that is read off the place of a schema file is the one that the services of its module are
written into exactly if the file stands straight. So, in a run, all modules are imported from where their
services are staged exactly if all schema files of queries and mutations stand straight. -/
theorem moduleDir_agrees_iff (config : Config) :
    (∀ relative owner dir,
      layout? config.paths.modulesDir config.paths.schemasDir relative = some (owner, dir) →
      (dir = serviceDir config.paths owner ↔ IsStraight config.paths relative) ∧
        ∀ s : Setting, s.config = config →
          (s.root.join dir = moduleDir s owner ↔ IsStraight config.paths relative)) ∧
    ∀ t root stamp files s m p, setting t root config = .ok s →
      readModel t config.paths files = .ok m → render t root config stamp m = .ok p →
      (∀ imported ∈ Output.moduleImports s m.files, ∃ file ∈ m.files,
        imported = s.moduleImport file.moduleDir ∧
          (p.staging.get? (servicePath s (idOf file))).isSome) ∧
      ((∀ file ∈ m.files, s.root.join file.moduleDir = moduleDir s file.owner) ↔
        ∀ kind f, (kind, f) ∈ schemaFiles files → kind ≠ .subscription →
          IsStraight config.paths f.relative) := by
  refine ⟨fun relative owner dir h => ⟨layout?_eq_serviceDir_iff h, ?_⟩, ?_⟩
  · rintro s rfl
    exact join_eq_moduleDir_iff h rfl
  intro t root stamp files s m p hs hread hrender
  have hconfig : s.config = config := by
    obtain ⟨goModule, -, hmade⟩ := bind_eq_ok_iff.1 hs
    exact (congrArg Setting.config (Except.ok.inj hmade)).symm
  have hfiles := forall₂_readModel hread
  -- both directories of a file, seen from the place where it was found
  have hplace {found : Kind × Found} {file : SchemaFile} {interior : Text}
      (hfile : schemaFile config.paths found.1 found.2 interior = .ok file) :
      s.root.join file.moduleDir = moduleDir s file.owner ↔
        IsStraight config.paths found.2.relative :=
    join_eq_moduleDir_iff (layout?_of_schemaFile hfile) (by rw [hconfig])
  refine ⟨fun imported himported => ?_, fun hdirs kind f hfound hkind => ?_, fun hall file hfile => ?_⟩
  · rw [Output.moduleImports, Table.mem_keys_ofList, List.map_map] at himported
    obtain ⟨file, hfile, rfl⟩ := List.mem_map.1 himported
    exact ⟨file, hfile, rfl, isSome_service_of_render hs hrender file hfile⟩
  · have hmem : (kind, f) ∈ (schemaFiles files).filter (·.1 ≠ .subscription) :=
      List.mem_filter.2 ⟨hfound, decide_eq_true hkind⟩
    obtain ⟨file, hfile, ⟨interior, hschema⟩, -⟩ := exists_of_forall₂ hfiles hfiles hmem
    exact (hplace hschema).1 (hdirs file hfile)
  · obtain ⟨⟨kind, f⟩, hmem, ⟨interior, hschema⟩, -⟩ :=
      exists_of_forall₂ hfiles.flip hfiles.flip hfile
    obtain ⟨hfound, hkind⟩ := List.mem_filter.1 hmem
    exact (hplace hschema).2 (hall kind f hfound (of_decide_eq_true hkind))

/-- Below a project that is named like the directories for schema files, and in a directory of a package,
a schema file has another directory than the services of its module. -/
theorem layout?_leaves_serviceDir :
    let paths : Paths := {}
    (∃ owner dir, layout? paths.modulesDir paths.schemasDir
        "modules/schemas/user/user_query.graphqls".toList = some (owner, dir) ∧
      dir = "modules/user".toList ∧ serviceDir paths owner = "modules/schemas/user".toList) ∧
    ∃ owner dir, layout? paths.modulesDir paths.schemasDir
        "modules/shop/user/admin/user_query.graphqls".toList = some (owner, dir) ∧
      dir = "modules/shop/user/admin".toList ∧
      serviceDir paths owner = "modules/shop/user".toList := by
  refine ⟨⟨⟨"schemas".toList, "user".toList⟩, _, ?_, rfl, ?_⟩,
    ⟨⟨"shop".toList, "user".toList⟩, _, ?_, rfl, ?_⟩⟩ <;> decide

private def shopOwner : ModuleRef := ⟨"shop".toList, "user".toList⟩

private def shopPlace : Text := "modules/shop/user/schemas/user_query.graphqls".toList

/-- A project with one schema file, in a directory for schema files. -/
private def shop : Tree :=
  ⟨[("modules".toList, .directory [("shop".toList, .directory [("user".toList, .directory
    [("schemas".toList, .directory [("user_query.graphqls".toList,
      .file (.text "type Query {}\n".toList))])])])])]⟩

private def shopConfig : Config := { goModule := some "api".toList }

private def shopSetting : Setting := ⟨⟨[]⟩, "api".toList, shopConfig⟩

private def shopFile : SchemaFile :=
  ⟨.query, shopOwner, ⟨shopPlace⟩, "modules/shop/user".toList, false, []⟩

private theorem layout?_shopPlace :
    layout? "modules".toList "schemas".toList shopPlace =
      some (shopOwner, "modules/shop/user".toList) := by
  unfold shopPlace
  decide

/-- It is a schema file of queries, and no file of responses. -/
private theorem marks_shopPlace :
    withMark responseMark [⟨⟨shopPlace⟩, shopPlace⟩] = [] ∧
      schemaFiles [⟨⟨shopPlace⟩, shopPlace⟩] = [(.query, ⟨⟨shopPlace⟩, shopPlace⟩)] := by
  unfold shopPlace
  repeat rw [String.toList_ofList]
  decide

/-- The shop is read. -/
private theorem readModel_shop :
    readModel shop shopConfig.paths [⟨⟨shopPlace⟩, shopPlace⟩] =
      .ok ⟨[shopFile], [⟨.query, ⟨shopPlace⟩, []⟩], .empty⟩ := by
  have htext : shop.readText ⟨shopPlace⟩ = .ok "type Query {}\n".toList := by cbv
  have hinterior : interior? "type Query {}\n".toList = some [] := by decide
  have hschema : schemaFile shopConfig.paths .query ⟨⟨shopPlace⟩, shopPlace⟩ [] = .ok shopFile := by
    have hplace : layout? shopConfig.paths.modulesDir shopConfig.paths.schemasDir shopPlace = _ :=
      layout?_shopPlace
    unfold schemaFile
    rw [hplace]
    rfl
  have hfile : readFile shop shopConfig.paths .query ⟨⟨shopPlace⟩, shopPlace⟩ =
      .ok (some shopFile, ⟨.query, ⟨shopPlace⟩, []⟩) :=
    readFile_eq_ok_iff.2
      ⟨⟨_, congrArg _ htext, hinterior⟩, rfl, rfl, .inr ⟨by decide, _, rfl, hschema⟩⟩
  unfold readModel
  rw [marks_shopPlace.1, marks_shopPlace.2]
  exact bind_eq_ok_iff.2 ⟨.empty, rfl, bind_eq_ok_iff.2 ⟨_, mapM_eq_ok_iff.2 (.cons hfile .nil), rfl⟩⟩

private theorem setting_shop : setting shop ⟨[]⟩ shopConfig = .ok shopSetting := by cbv

private theorem exists_render_shop (documents : List Document) :
    ∃ p, render shop ⟨[]⟩ shopConfig [] ⟨[shopFile], documents, .empty⟩ = .ok p := by
  let g : Group := ⟨idOf shopFile, false, []⟩
  have hexisting : readExisting shop (servicePath shopSetting g.toGroupId) = .ok none := by
    have hpath : servicePath shopSetting g.toGroupId =
        ⟨"modules/shop/user/service_query.go".toList⟩ := rfl
    have hmissing : shop.readText ⟨"modules/shop/user/service_query.go".toList⟩ =
        .error .noSuchFile := by
      cbv
    rw [hpath, readExisting, hmissing]
  have harchive :
      archiveOf shop shopSetting [] g (regenerate shopSetting .empty g none).leftovers = .ok none := by
    have hleftovers : (regenerate shopSetting .empty g none).leftovers = [] := List.mergeSort_nil
    rw [hleftovers]
    rfl
  obtain ⟨r, hr⟩ : ∃ r, renderGroup shop shopSetting .empty [] g = .ok r :=
    ⟨_, bind_eq_ok_iff.2 ⟨none, hexisting, bind_eq_ok_iff.2 ⟨none, harchive, rfl⟩⟩⟩
  have hgroups : groups [shopFile] = [g] := rfl
  refine exists_render setting_shop fun g' hg' => ?_
  rw [hgroups] at hg'
  exact List.mem_singleton.1 hg' ▸ ⟨r, hr⟩

/-- The shop, whose schema file stands straight. -/
theorem moduleDir_agrees_iff_shop :
    "modules/shop/user".toList = serviceDir shopConfig.paths shopOwner ∧
      ∃ m p, readModel shop shopConfig.paths [⟨⟨shopPlace⟩, shopPlace⟩] = .ok m ∧
        render shop ⟨[]⟩ shopConfig [] m = .ok p ∧
        (∀ imported ∈ Output.moduleImports shopSetting m.files, ∃ file ∈ m.files,
          imported = shopSetting.moduleImport file.moduleDir ∧
            (p.staging.get? (servicePath shopSetting (idOf file))).isSome) ∧
        ∀ file ∈ m.files, shopSetting.root.join file.moduleDir = moduleDir shopSetting file.owner := by
  obtain ⟨hlayout, hrun⟩ := moduleDir_agrees_iff shopConfig
  have hstraight : IsStraight shopConfig.paths shopPlace := by
    unfold shopConfig shopPlace
    repeat rw [String.toList_ofList]
    decide
  obtain ⟨p, hp⟩ := exists_render_shop [⟨.query, ⟨shopPlace⟩, []⟩]
  obtain ⟨himports, hdirs⟩ := hrun _ _ _ _ _ _ _ setting_shop readModel_shop hp
  refine ⟨(hlayout shopPlace _ _ layout?_shopPlace).1.2 hstraight, _, p, readModel_shop, hp, himports,
    hdirs.2 fun kind f hf _ => ?_⟩
  rw [marks_shopPlace.2] at hf
  obtain ⟨-, rfl⟩ := Prod.mk.inj (List.mem_singleton.1 hf)
  exact hstraight

end Project

end Scaffold
