import Scaffold.Proofs.Output.Dispatching

/-!
# What a model was read from

A model that was read has one file for each schema file of queries and mutations that was found, and the
place of a file says which module it belongs to (`exists_found_readModel`). The files of queries come
before those of mutations, so that the actions do too (`pairwise_rank_actions`), and no action is a
subscription (`kind_ne_subscription`). In the other direction, a project is read if all its schema files
are (`readFile_eq_ok`), such as files whose fields have no arguments (`PlainFile.readModel_eq_ok`).
-/

namespace Scaffold.Project

open Text Schema

variable {t : Tree} {paths : Paths} {files : List Found} {m : Model}

/-! ## From a model to what was found -/

/-- A file of a model has the kind that it was read for. -/
theorem kind_of_schemaFile {kind : Kind} {f : Found} {interior : Text} {file : SchemaFile}
    (h : schemaFile paths kind f interior = .ok file) : file.kind = kind := by
  obtain ⟨owner, moduleDir, as, -, -, rfl⟩ := schemaFile_eq_ok_iff.1 h
  rfl

/-- What the file of a model says of its place. -/
theorem layout?_of_schemaFile {kind : Kind} {f : Found} {interior : Text}
    {file : SchemaFile} (h : schemaFile paths kind f interior = .ok file) :
    layout? paths.modulesDir paths.schemasDir f.relative = some (file.owner, file.moduleDir) := by
  obtain ⟨owner, moduleDir, as, hlayout, -, rfl⟩ := schemaFile_eq_ok_iff.1 h
  exact hlayout

/-- Each file of a model was found, and its place says which module it belongs to. -/
theorem exists_found_readModel (h : readModel t paths files = .ok m) {file : SchemaFile}
    (hfile : file ∈ m.files) :
    file.kind ≠ .subscription ∧ ∃ f, (file.kind, f) ∈ schemaFiles files ∧
      layout? paths.modulesDir paths.schemasDir f.relative = some (file.owner, file.moduleDir) := by
  obtain ⟨⟨kind, f⟩, hmem, ⟨interior, hschema⟩, -⟩ :=
    exists_of_forall₂ (forall₂_readModel h).flip (forall₂_readModel h).flip hfile
  obtain ⟨hfound, hkind⟩ := List.mem_filter.1 hmem
  obtain rfl := kind_of_schemaFile hschema
  exact ⟨of_decide_eq_true hkind, f, hfound, layout?_of_schemaFile hschema⟩

/-- An action of a model stands in one of its files, and carries the module and the kind of the file. -/
theorem exists_file_of_mem_actions (h : readModel t paths files = .ok m) {a : Action}
    (ha : a ∈ m.actions) :
    ∃ file ∈ m.files, a ∈ file.actions ∧ a.owner = file.owner ∧ a.kind = file.kind := by
  obtain ⟨file, hfile, hmem⟩ := List.mem_flatMap.1 ha
  exact ⟨file, hfile, hmem, owned_readModel h file hfile a hmem⟩

/-- No action of a model is a subscription. -/
theorem kind_ne_subscription (h : readModel t paths files = .ok m) {a : Action}
    (ha : a ∈ m.actions) : a.kind ≠ .subscription := by
  obtain ⟨file, hfile, -, -, hkind⟩ := exists_file_of_mem_actions h ha
  rw [hkind]
  exact (exists_found_readModel h hfile).1

/-- The schema files are listed by their kinds. -/
theorem pairwise_rank_schemaFiles (files : List Found) :
    (schemaFiles files).Pairwise fun f g => f.1.rank ≤ g.1.rank := by
  have hkinds : Kind.all.Pairwise fun k k' => k.rank ≤ k'.rank := by decide
  rw [schemaFiles, List.pairwise_flatMap]
  constructor
  · intro kind _
    exact List.pairwise_map.2 (List.pairwise_of_forall fun _ _ => Nat.le_refl _)
  · refine hkinds.imp fun hle f hf g hg => ?_
    obtain ⟨_, -, rfl⟩ := List.mem_map.1 hf
    obtain ⟨_, -, rfl⟩ := List.mem_map.1 hg
    exact hle

/-- The files of a model are listed by their kinds. -/
theorem pairwise_rank_files (h : readModel t paths files = .ok m) :
    m.files.Pairwise fun f g => f.kind.rank ≤ g.kind.rank := by
  have hkinds : m.files.map SchemaFile.kind =
      ((schemaFiles files).filter (·.1 ≠ .subscription)).map Prod.fst := by
    rw [← List.forall₂_eq_eq_eq, List.forall₂_map_left_iff, List.forall₂_map_right_iff]
    exact ((forall₂_readModel h).imp fun _ _ ⟨_, hread⟩ => kind_of_schemaFile hread).flip
  have hfound := (pairwise_rank_schemaFiles files).filter (·.1 ≠ .subscription)
  rw [← List.pairwise_map (f := SchemaFile.kind) (R := fun k k' => k.rank ≤ k'.rank), hkinds]
  exact List.pairwise_map.2 hfound

/-- The actions of a model are listed by their kinds. -/
theorem pairwise_rank_actions (h : readModel t paths files = .ok m) :
    m.actions.Pairwise fun a b => a.kind.rank ≤ b.kind.rank := by
  have hkind {file : SchemaFile} (hfile : file ∈ m.files) {a : Action} (ha : a ∈ file.actions) :
      a.kind = file.kind := (owned_readModel h file hfile a ha).2
  rw [Model.actions, List.pairwise_flatMap]
  refine ⟨fun file hfile => List.pairwise_of_forall_mem_list fun a ha b hb => ?_, ?_⟩
  · rw [hkind hfile ha, hkind hfile hb]
  · refine (pairwise_rank_files h).imp_of_mem fun hf hg hle a ha b hb => ?_
    rwa [hkind hf ha, hkind hg hb]

/-! ## From what was found to a model -/

/-- A schema file of queries or mutations is read if it holds a type block, its place belongs to a module
and its fields keep the rules. -/
theorem readFile_eq_ok {kind : Kind} {f : Found} {text interior dir : Text} {owner : ModuleRef}
    {as : List Action} (hkind : kind ≠ .subscription) (htext : t.readText f.path = .ok text)
    (hinterior : interior? text = some interior)
    (hplace : layout? paths.modulesDir paths.schemasDir f.relative = some (owner, dir))
    (hactions : actions ⟨f.path, kind, owner⟩ (flatten interior) = .ok as) :
    readFile t paths kind f =
      .ok (some ⟨kind, owner, f.path, dir, occursIn uploadType (flatten interior), as⟩,
        ⟨kind, f.path, interior⟩) := by
  have hschema : schemaFile paths kind f interior =
      .ok ⟨kind, owner, f.path, dir, occursIn uploadType (flatten interior), as⟩ :=
    schemaFile_eq_ok_iff.2 ⟨owner, dir, as, hplace, hactions, rfl⟩
  exact readFile_eq_ok_iff.2
    ⟨⟨text, congrArg _ htext, hinterior⟩, rfl, rfl, .inr ⟨hkind, _, rfl, hschema⟩⟩

/-- A schema file whose fields have no arguments. -/
structure PlainFile where
  kind : Kind
  owner : ModuleRef
  /-- The directory of the module, seen from the root of the project. -/
  dir : Text
  /-- The names that lead to the file from the root, joined by slashes. -/
  place : Text
  /-- What stands between the braces of the type block. -/
  interior : Text
  /-- The names of the fields and of their responses. -/
  named : List (Text × Text)

namespace PlainFile

/-- The file as it is found from a root that is the current directory. -/
def found (f : PlainFile) : Found := ⟨⟨f.place⟩, f.place⟩

/-- The text of a plain file: one type block. -/
def content (f : PlainFile) : Text :=
  "type ".toList ++ f.kind.typeName ++ " \x7b".toList ++ f.interior ++ ['}']

/-- What the file says. -/
def schemaFile (f : PlainFile) : SchemaFile :=
  ⟨f.kind, f.owner, ⟨f.place⟩, f.dir, false, f.named.map fun p => ⟨p.1, [], p.2, f.kind, f.owner⟩⟩

/-- Whether a file says what it was made from: the type block and the fields are found in its content, the
responses have names, nothing mentions uploads, and the file stands in its module. -/
def IsSound (paths : Paths) (f : PlainFile) : Prop :=
  f.kind ≠ .subscription ∧ interior? f.content = some f.interior ∧
    layout? paths.modulesDir paths.schemasDir f.place = some (f.owner, f.dir) ∧
    (∀ p ∈ f.named, p.2 ≠ []) ∧
    fields (flatten f.interior) = f.named.map (fun p => plainRaw p.1 p.2) ∧
    occursIn uploadType (flatten f.interior) = false

instance (paths : Paths) (f : PlainFile) : Decidable (f.IsSound paths) :=
  inferInstanceAs (Decidable (_ ∧ _ ∧ _ ∧ _ ∧ _ ∧ _))

/-- A sound plain file is read as the schema file it describes. -/
theorem readFile_found {f : PlainFile} (h : f.IsSound paths)
    (htext : t.readText ⟨f.place⟩ = .ok f.content) :
    readFile t paths f.kind f.found =
      .ok (some f.schemaFile, ⟨f.kind, ⟨f.place⟩, f.interior⟩) := by
  obtain ⟨hkind, hinterior, hplace, hresponses, hfields, hupload⟩ := h
  have hread : readFile t paths f.kind f.found = _ :=
    readFile_eq_ok hkind htext hinterior hplace (actions_of_plain hresponses hfields)
  rw [hread, hupload]
  rfl

/-- The model of a project that has these schema files and no responses. -/
def model (fs : List PlainFile) : Model :=
  ⟨fs.map schemaFile, fs.map fun f => ⟨f.kind, ⟨f.place⟩, f.interior⟩, .empty⟩

/-- A project without responses whose schema files are plain is read. -/
theorem readModel_eq_ok {fs : List PlainFile} (hresponses : withMark responseMark files = [])
    (hfound : schemaFiles files = fs.map fun f => (f.kind, f.found))
    (hsound : ∀ f ∈ fs, f.IsSound paths)
    (htexts : ∀ f ∈ fs, t.readText ⟨f.place⟩ = .ok f.content) :
    readModel t paths files = .ok (model fs) := by
  have hread : (schemaFiles files).mapM (fun kf => readFile t paths kf.1 kf.2) =
      .ok (fs.map fun f => (some f.schemaFile, ⟨f.kind, ⟨f.place⟩, f.interior⟩)) := by
    rw [hfound, mapM_eq_ok_iff, List.forall₂_map_left_iff, List.forall₂_map_right_iff,
      List.forall₂_same]
    exact fun f hf => readFile_found (hsound f hf) (htexts f hf)
  unfold readModel
  rw [hresponses]
  refine bind_eq_ok_iff.2 ⟨.empty, rfl, bind_eq_ok_iff.2 ⟨_, hread, ?_⟩⟩
  have hfiles (fs : List PlainFile) :
      (fs.map fun f => (some f.schemaFile, (⟨f.kind, ⟨f.place⟩, f.interior⟩ : Document))).filterMap
        (·.1) = fs.map schemaFile := by
    rw [List.filterMap_map]
    exact congrFun List.filterMap_eq_map fs
  rw [hfiles, List.map_map]
  rfl

end PlainFile

end Scaffold.Project
