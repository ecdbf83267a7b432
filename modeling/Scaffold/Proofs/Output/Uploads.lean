import Mathlib.Data.List.Permutation
import Scaffold.Proofs.Project.Reading
import Scaffold.Proofs.Schema.Mentions

/-!
# The import for uploaded files

Whether a file has uploads is looked up in its text, not in its arguments: the name of their type occurs in
what its block says without documentation and commas. So the import of the resolver file is there if an
argument needs it, and it is there as well if the name occurs anywhere else (`upload_imported_iff`).
-/

namespace Scaffold

open Text Naming Schema

/-! ## Uses and mentions -/

/-- An argument of the file has the Go type for uploaded files. -/
def SchemaFile.UsesUpload (file : SchemaFile) : Prop :=
  ∃ a ∈ file.actions, ∃ arg ∈ a.args, scalarType arg.typeName = "graphql.Upload".toList

namespace Schema

/-- An annotation names the type for uploaded files with marks between its letters. -/
def PartsUpload (flat : Text) : Prop :=
  ∃ raw, raw <:+: flat ∧ (readType raw).typeName = uploadType ∧ ¬uploadType <:+: raw

/-- No other type has the Go type for uploaded files. -/
theorem scalarType_eq_upload_iff {name : Text} :
    scalarType name = "graphql.Upload".toList ↔ name = uploadType := by
  constructor
  · intro h
    rcases scalarType_cases name with hscalar | hmodel
    · have hall : ∀ row ∈ scalars, row.2 = "graphql.Upload".toList → row.1 = uploadType := by decide
      exact hall _ hscalar h
    · rw [hmodel] at h
      exact absurd (congrArg List.head? h) (by simp [modelType, modelPackage])
  · rintro rfl
    decide

/-- Flat text mentions the type of uploads exactly if the bare text does. -/
theorem uploadType_infix_flatten_iff {interior : Text} :
    uploadType <:+: flatten interior ↔ uploadType <:+: bareText interior :=
  word_infix_flatten_iff (by decide) (by decide)

/-- What is used is mentioned, in an annotation. -/
theorem mention_of_use {origin : Origin} {flat : Text} {as : List Action}
    (h : actions origin flat = .ok as) {a : Action} (ha : a ∈ as) {arg : Argument} (harg : arg ∈ a.args)
    (htype : arg.typeName = uploadType) : uploadType <:+: flat ∨ PartsUpload flat := by
  obtain ⟨raw, hread, hstands⟩ := exists_annotation h ha harg
  have hraw : raw <:+: flat := hstands (by rw [htype]; decide)
  by_cases hwhole : uploadType <:+: raw
  · exact .inl (hwhole.trans hraw)
  · exact .inr ⟨raw, hraw, by rw [← hread, htype], hwhole⟩

end Schema

namespace Project

variable {t : Tree} {paths : Paths} {files : List Found} {m : Model}

/-- A file has uploads if its text mentions them, and so it does if an argument uses them and no marks part
the name of their type. -/
theorem hasUpload_of_schemaFile {kind : Kind} {f : Found} {interior : Text} {file : SchemaFile}
    (h : schemaFile paths kind f interior = .ok file) :
    (file.hasUpload ↔ uploadType <:+: flatten interior) ∧
      (file.UsesUpload → file.hasUpload ∨ PartsUpload (flatten interior)) := by
  obtain ⟨owner, moduleDir, as, -, has, rfl⟩ := schemaFile_eq_ok_iff.1 h
  refine ⟨occursIn_iff, ?_⟩
  rintro ⟨a, ha, arg, harg, htype⟩
  exact (mention_of_use has ha harg (scalarType_eq_upload_iff.1 htype)).imp_left occursIn_iff.2

/-- A file that is read keeps its path. -/
theorem path_of_schemaFile {kind : Kind} {f : Found} {interior : Text} {file : SchemaFile}
    (h : schemaFile paths kind f interior = .ok file) : file.path = f.path := by
  obtain ⟨owner, moduleDir, as, -, -, rfl⟩ := schemaFile_eq_ok_iff.1 h
  rfl

/-- The files of a model are those of its documents of queries and mutations. -/
theorem forall₂_files_documents (h : readModel t paths files = .ok m) :
    List.Forall₂ (fun file d => ∃ f, d.path = f.path ∧ schemaFile paths d.kind f d.interior = .ok file)
      m.files (m.documents.filter (·.kind ≠ .subscription)) := by
  obtain ⟨rows, hfiles, hdocuments, hrows⟩ := exists_rows_readModel h
  rw [hfiles, hdocuments, List.forall₂_map_left_iff, List.forall₂_map_right_iff, List.forall₂_same]
  intro row hrow
  obtain ⟨kf, -, ⟨hkind, hpath, hschema⟩, -⟩ := exists_of_forall₂ hrows.flip hrows.flip hrow
  exact ⟨kf.2, hpath, by rwa [hkind]⟩

end Project

/-! ## The resolver file -/

namespace Output

open Project

variable {t : Tree} {files : List Found} {m : Model}

/-- What the resolver file imports in each project. -/
def plainImports (s : Setting) (m : Model) : List Text :=
  s.modelImport :: "context".toList :: moduleImports s m.files

/-- The header of a resolver file with these imports. -/
def headerWith (imports : List Text) : Text :=
  "package graph\n\nimport (\n".toList ++ imports.flatMap importLine ++ ")\n\n".toList

/-- The resolver file imports the package for uploaded files, behind all others. -/
def ImportsUpload (s : Setting) (m : Model) : Prop :=
  resolverHeader s m = headerWith (plainImports s m ++ [s.uploadImport])

/-- The imports of the resolver file: those of any model, and that of uploads. -/
theorem resolverHeader_eq (s : Setting) (m : Model) :
    resolverHeader s m =
      headerWith (plainImports s m ++ if m.hasUpload then [s.uploadImport] else []) := by
  have huploads : (if m.hasUpload then importLine s.uploadImport else []) =
      (if m.hasUpload then [s.uploadImport] else []).flatMap importLine := by
    split_ifs
    · exact (List.flatMap_singleton importLine s.uploadImport).symm
    · rfl
  have hassoc (a b c d e f : Text) : a ++ b ++ c ++ d ++ e ++ f = a ++ (b ++ (c ++ (d ++ e))) ++ f := by
    simp
  unfold resolverHeader headerWith plainImports
  rw [huploads, List.cons_append, List.cons_append, List.flatMap_cons, List.flatMap_cons,
    List.flatMap_append]
  exact hassoc _ _ _ _ _ _

/-- The package for uploads is imported exactly if a file has the flag. -/
theorem importsUpload_iff (s : Setting) (m : Model) : ImportsUpload s m ↔ m.hasUpload := by
  rw [ImportsUpload, resolverHeader_eq]
  split_ifs with h
  · exact iff_of_true rfl h
  · refine iff_of_false (fun heq => ?_) h
    have hlines := List.append_cancel_left (List.append_cancel_right heq)
    rw [List.append_nil, List.flatMap_append, List.flatMap_singleton, List.self_eq_append_right,
      importLine, List.append_eq_nil_iff] at hlines
    exact absurd hlines.2 (by decide)

/-- A model has uploads if a block of queries or mutations mentions them. -/
theorem hasUpload_iff {paths : Paths} (h : readModel t paths files = .ok m) :
    m.hasUpload ↔ ∃ d ∈ m.documents, d.kind ≠ .subscription ∧ uploadType <:+: bareText d.interior := by
  have hall := forall₂_files_documents h
  rw [Model.hasUpload, List.any_eq_true]
  constructor
  · rintro ⟨file, hfile, hupload⟩
    obtain ⟨d, hd, ⟨f, -, hread⟩, -⟩ := exists_of_forall₂ hall hall hfile
    obtain ⟨hmem, hkind⟩ := List.mem_filter.1 hd
    exact ⟨d, hmem, of_decide_eq_true hkind,
      uploadType_infix_flatten_iff.1 ((hasUpload_of_schemaFile hread).1.1 hupload)⟩
  · rintro ⟨d, hd, hkind, hmention⟩
    have hmem : d ∈ m.documents.filter (·.kind ≠ .subscription) :=
      List.mem_filter.2 ⟨hd, decide_eq_true hkind⟩
    obtain ⟨file, hfile, ⟨f, -, hread⟩, -⟩ := exists_of_forall₂ hall.flip hall.flip hmem
    exact ⟨file, hfile, (hasUpload_of_schemaFile hread).1.2 (uploadType_infix_flatten_iff.2 hmention)⟩

/-- Each file has the flag for uploads exactly if its block mentions their type, as flat text or without
documentation and commas. The resolver file imports the package for uploaded files exactly if a block of
queries or mutations mentions their type, and so it does if an argument has the Go type of that package,
unless an annotation has marks between the letters of the name. -/
theorem upload_imported_iff (s : Setting) (h : readModel t s.config.paths files = .ok m) :
    List.Forall₂ (fun file d => file.kind = d.kind ∧ file.path = d.path ∧
        (file.hasUpload ↔ uploadType <:+: flatten d.interior) ∧
        (uploadType <:+: flatten d.interior ↔ uploadType <:+: bareText d.interior) ∧
        (file.UsesUpload → file.hasUpload ∨ PartsUpload (flatten d.interior)))
      m.files (m.documents.filter (·.kind ≠ .subscription)) ∧
    (ImportsUpload s m ↔
      ∃ d ∈ m.documents, d.kind ≠ .subscription ∧ uploadType <:+: bareText d.interior) ∧
    (¬ImportsUpload s m → resolverHeader s m = headerWith (plainImports s m)) ∧
    ((∃ file ∈ m.files, file.UsesUpload) → ImportsUpload s m ∨
      ∃ d ∈ m.documents, d.kind ≠ .subscription ∧ PartsUpload (flatten d.interior)) := by
  have hall := forall₂_files_documents h
  refine ⟨hall.imp fun file d hd => ?_, ?_, fun hnot => ?_, ?_⟩
  · obtain ⟨f, hpath, hread⟩ := hd
    obtain ⟨hflag, huse⟩ := hasUpload_of_schemaFile hread
    exact ⟨kind_of_schemaFile hread, (path_of_schemaFile hread).trans hpath.symm, hflag,
      uploadType_infix_flatten_iff, huse⟩
  · rw [importsUpload_iff, hasUpload_iff h]
  · rw [importsUpload_iff] at hnot
    rw [resolverHeader_eq, if_neg hnot, List.append_nil]
  · rintro ⟨file, hfile, huse⟩
    obtain ⟨d, hd, ⟨f, -, hread⟩, -⟩ := exists_of_forall₂ hall hall hfile
    obtain ⟨hmem, hkind⟩ := List.mem_filter.1 hd
    rw [importsUpload_iff, Model.hasUpload, List.any_eq_true]
    exact ((hasUpload_of_schemaFile hread).2 huse).imp (⟨file, hfile, ·⟩)
      (⟨d, hmem, of_decide_eq_true hkind, ·⟩)

/-- A tree with one schema file is read as that file. -/
private theorem readModel_single {paths : Paths} {f : Found} {kind : Kind} {file : SchemaFile} {d : Document}
    (hresponses : withMark responseMark [f] = []) (hfound : schemaFiles [f] = [(kind, f)])
    (hread : readFile t paths kind f = .ok (some file, d)) :
    readModel t paths [f] = .ok ⟨[file], [d], .empty⟩ := by
  have hfiles : (schemaFiles [f]).mapM (fun kf => readFile t paths kf.1 kf.2) = .ok [(some file, d)] := by
    rw [hfound, mapM_eq_ok_iff]
    exact .cons hread .nil
  unfold readModel
  rw [hresponses]
  exact bind_eq_ok_iff.2 ⟨.empty, rfl, bind_eq_ok_iff.2 ⟨_, hfiles, rfl⟩⟩

/-- A project whose only schema file is `modules/shop/user/` with this name. -/
private def uploadTree (name content : Text) : Tree :=
  ⟨[("modules".toList, .directory [("shop".toList, .directory [("user".toList, .directory
    [(name, .file (.text content))])])])]⟩

private def uploadOwner : ModuleRef := ⟨"shop".toList, "user".toList⟩

private def apiServer : Setting := ⟨⟨[]⟩, "example.com/api".toList, {}⟩

private def avatarFound : Found :=
  ⟨⟨"modules/shop/user/user_mutation.graphqls".toList⟩, "modules/shop/user/user_mutation.graphqls".toList⟩

private def avatarInterior : Text := "\n  setAvatar(file: Upload!): AvatarResponse!\n".toList

private def avatarContent : Text := "type Mutation \x7b".toList ++ avatarInterior ++ ['}']

private def setAvatar : Action :=
  ⟨"setAvatar".toList, [⟨⟨"Upload".toList, true, false, false⟩, "file".toList⟩], "AvatarResponse".toList,
    .mutation, uploadOwner⟩

private def avatarModel : Model :=
  ⟨[⟨.mutation, uploadOwner, avatarFound.path, "modules/shop/user".toList, true, [setAvatar]⟩],
    [⟨.mutation, avatarFound.path, avatarInterior⟩], .empty⟩

/-- The tree with one mutation is read as that mutation. -/
private theorem readModel_avatar :
    readModel (uploadTree "user_mutation.graphqls".toList avatarContent) {} [avatarFound] =
      .ok avatarModel := by
  have htext (content : Text) : (uploadTree "user_mutation.graphqls".toList content).readText
      avatarFound.path = .ok content := by cbv
  have hinterior : interior? avatarContent = some avatarInterior := by decide
  have hplace : layout? ({} : Paths).modulesDir ({} : Paths).schemasDir avatarFound.relative =
      some (uploadOwner, "modules/shop/user".toList) := by decide
  have hactions : actions ⟨avatarFound.path, .mutation, uploadOwner⟩ (flatten avatarInterior) =
      .ok [setAvatar] := by
    have hfields : fields (flatten avatarInterior) =
        [⟨"setAvatar".toList, "file:Upload!".toList, "AvatarResponse!".toList⟩] := by decide
    refine actions_singleton hfields ?_ rfl
    cbv
  exact readModel_single rfl rfl
    (readFile_eq_ok (by decide) (htext _) hinterior hplace hactions)

/-- A mutation that takes an upload. -/
theorem upload_imported_iff_avatar :
    readModel (uploadTree "user_mutation.graphqls".toList avatarContent) {} [avatarFound] =
        .ok avatarModel ∧
      (∃ file ∈ avatarModel.files, file.UsesUpload) ∧ ImportsUpload apiServer avatarModel := by
  have huse : ∃ file ∈ avatarModel.files, file.UsesUpload :=
    ⟨_, List.mem_cons_self, setAvatar, List.mem_cons_self, _, List.mem_cons_self, by decide⟩
  obtain ⟨-, himport, -, -⟩ := upload_imported_iff apiServer readModel_avatar
  have hmention : uploadType <:+: bareText avatarInterior := by decide
  exact ⟨readModel_avatar, huse, himport.2 ⟨_, List.mem_cons_self, by decide, hmention⟩⟩

private def pictureFound : Found :=
  ⟨⟨"modules/shop/user/user_query.graphqls".toList⟩, "modules/shop/user/user_query.graphqls".toList⟩

private def pictureInterior : Text := "\n  picture: Upload!\n".toList

private def pictureContent : Text := "type Query \x7b".toList ++ pictureInterior ++ ['}']

private def picture : Action :=
  ⟨"picture".toList, [], "Upload".toList, .query, uploadOwner⟩

private def pictureModel : Model :=
  ⟨[⟨.query, uploadOwner, pictureFound.path, "modules/shop/user".toList, true, [picture]⟩],
    [⟨.query, pictureFound.path, pictureInterior⟩], .empty⟩

/-- A query answers with the type, and no action has an argument: the block mentions what nothing uses. -/
theorem upload_imported_unused :
    readModel (uploadTree "user_query.graphqls".toList pictureContent) {} [pictureFound] = .ok pictureModel ∧
      (∀ file ∈ pictureModel.files, file.hasUpload ∧ ¬file.UsesUpload) ∧
      ImportsUpload apiServer pictureModel := by
  have htext (content : Text) : (uploadTree "user_query.graphqls".toList content).readText
      pictureFound.path = .ok content := by cbv
  have hinterior : interior? pictureContent = some pictureInterior := by decide
  have hplace : layout? ({} : Paths).modulesDir ({} : Paths).schemasDir pictureFound.relative =
      some (uploadOwner, "modules/shop/user".toList) := by decide
  have hfields : fields (flatten pictureInterior) =
      [("picture".toList, "Upload".toList)].map fun p => plainRaw p.1 p.2 := by decide
  have hactions : actions ⟨pictureFound.path, .query, uploadOwner⟩ (flatten pictureInterior) =
      .ok [picture] := actions_of_plain (by decide) hfields
  refine ⟨readModel_single rfl rfl (readFile_eq_ok (by decide) (htext _) hinterior hplace hactions), ?_,
    (importsUpload_iff _ _).2 rfl⟩
  refine List.forall_mem_singleton.2 ⟨rfl, ?_⟩
  rintro ⟨a, ha, arg, harg, -⟩
  obtain rfl := List.mem_singleton.1 ha
  cases harg

end Output

end Scaffold
