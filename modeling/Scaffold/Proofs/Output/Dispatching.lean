import Scaffold.Output.Dispatch
import Scaffold.Project.Analysis
import Scaffold.Proofs.Schema.Actions
import Scaffold.Proofs.Service.Grouping
import Scaffold.Proofs.Service.Merging

/-!
# Dispatching

The resolver has a method for the last action of each name in all files; a service has a function for the
last action of each name in the files of its module and kind. They do not contradict each other: the
action of a method is also the one that the service of its module and kind was written for, so that the
method calls a function with its own parameters and results (`dispatch_agrees`). What it takes is that
every action carries the module and the kind of its file, as in each model that was read (`owned_readModel`).
-/

namespace Scaffold.Schema

/-- Each action carries the module and the kind of its file. -/
def Model.Owned (m : Model) : Prop :=
  ∀ file ∈ m.files, ∀ a ∈ file.actions, a.owner = file.owner ∧ a.kind = file.kind

end Scaffold.Schema

namespace Scaffold.Project

open Schema

/-- A schema file is read if its place belongs to a module and its fields keep the rules. -/
theorem schemaFile_eq_ok_iff {paths : Paths} {kind : Kind} {f : Found} {interior : Text}
    {file : SchemaFile} :
    schemaFile paths kind f interior = .ok file ↔ ∃ owner moduleDir as,
      layout? paths.modulesDir paths.schemasDir f.relative = some (owner, moduleDir) ∧
        actions ⟨f.path, kind, owner⟩ (flatten interior) = .ok as ∧
        file = ⟨kind, owner, f.path, moduleDir, Text.occursIn uploadType (flatten interior), as⟩ := by
  unfold schemaFile
  cases hplace : layout? paths.modulesDir paths.schemasDir f.relative with
  | none => exact iff_of_false nofun fun ⟨_, _, _, hsome, _⟩ => nomatch hsome
  | some place =>
    obtain ⟨owner, moduleDir⟩ := place
    constructor
    · intro h
      obtain ⟨as, has, hfile⟩ := bind_eq_ok_iff.1 h
      exact ⟨owner, moduleDir, as, rfl, has, (Except.ok.inj hfile).symm⟩
    · rintro ⟨_, _, as, ⟨⟩, has, rfl⟩
      exact bind_eq_ok_iff.2 ⟨as, has, rfl⟩

/-- The actions of a file carry its module and its kind. -/
theorem owned_schemaFile {paths : Paths} {kind : Kind} {f : Found} {interior : Text}
    {file : SchemaFile} (h : schemaFile paths kind f interior = .ok file) :
    ∀ a ∈ file.actions, a.owner = file.owner ∧ a.kind = file.kind := by
  obtain ⟨owner, moduleDir, as, -, has, rfl⟩ := schemaFile_eq_ok_iff.1 h
  exact owned_actions has

/-- What is read of a schema file: the interior of its type block and the file that is made from it, but
for subscriptions, of which there are no files. -/
theorem readFile_eq_ok_iff {t : Tree} {paths : Paths} {kind : Kind} {f : Found}
    {file? : Option SchemaFile} {d : Document} :
    readFile t paths kind f = .ok (file?, d) ↔
      (∃ text, readSchema t f.path = .ok text ∧ interior? text = some d.interior) ∧
      d.kind = kind ∧ d.path = f.path ∧
      (kind = .subscription ∧ file? = none ∨
        kind ≠ .subscription ∧ ∃ file,
          file? = some file ∧ schemaFile paths kind f d.interior = .ok file) := by
  constructor
  · intro h
    obtain ⟨text, htext, h⟩ := bind_eq_ok_iff.1 h
    split at h
    · next interior hinterior =>
      dsimp only at h
      -- the files of subscriptions are read, but no actions are taken from them
      split_ifs at h with hkind
      · obtain ⟨_, hfile, h⟩ := bind_eq_ok_iff.1 h
        cases hfile
        cases h
        exact ⟨⟨text, htext, hinterior⟩, rfl, rfl, .inl ⟨hkind, rfl⟩⟩
      · obtain ⟨_, hfile, h⟩ := bind_eq_ok_iff.1 h
        cases hschema : schemaFile paths kind f interior with
        | error e =>
          rw [hschema] at hfile
          cases hfile
        | ok file =>
          rw [hschema] at hfile
          cases hfile
          cases h
          exact ⟨⟨text, htext, hinterior⟩, rfl, rfl, .inr ⟨hkind, file, rfl, hschema⟩⟩
    · cases h
  · obtain ⟨dkind, dpath, interior⟩ := d
    rintro ⟨⟨text, htext, hinterior⟩, rfl, rfl, hfile⟩
    refine bind_eq_ok_iff.2 ⟨text, htext, ?_⟩
    rw [hinterior]
    rcases hfile with ⟨rfl, rfl⟩ | ⟨hkind, file, rfl, hschema⟩
    · rfl
    · dsimp only at hschema ⊢
      rw [if_neg hkind, hschema]
      rfl

/-- A model is what was read of each schema file that was found. -/
theorem of_readModel {t : Tree} {paths : Paths} {files : List Found} {m : Model}
    (h : readModel t paths files = .ok m) : ∃ read,
      List.Forall₂ (fun kf r => readFile t paths kf.1 kf.2 = .ok r) (schemaFiles files) read ∧
      m.files = read.filterMap (·.1) ∧ m.documents = read.map (·.2) := by
  obtain ⟨responses, -, hfiles⟩ := bind_eq_ok_iff.1 h
  obtain ⟨read, hread, hmodel⟩ := bind_eq_ok_iff.1 hfiles
  obtain rfl := Except.ok.inj hmodel
  exact ⟨read, mapM_eq_ok_iff.1 hread, rfl, rfl⟩

/-- The files of a model and its documents of queries and mutations, side by side: each is made from a file
that was found. -/
theorem exists_rows_readModel {t : Tree} {paths : Paths} {files : List Found} {m : Model}
    (h : readModel t paths files = .ok m) : ∃ rows : List (SchemaFile × Document),
      m.files = rows.map (·.1) ∧ m.documents.filter (·.kind ≠ .subscription) = rows.map (·.2) ∧
      List.Forall₂ (fun kf row => row.2.kind = kf.1 ∧ row.2.path = kf.2.path ∧
          schemaFile paths kf.1 kf.2 row.2.interior = .ok row.1)
        ((schemaFiles files).filter (·.1 ≠ .subscription)) rows := by
  obtain ⟨read, hall, hfiles, hdocuments⟩ := of_readModel h
  rw [hfiles, hdocuments]
  clear h hfiles hdocuments
  generalize schemaFiles files = found at hall ⊢
  induction hall with
  | nil => exact ⟨[], rfl, rfl, .nil⟩
  | @cons kf read found rest hread _ ih =>
    obtain ⟨rows, hfiles, hdocuments, hrows⟩ := ih
    obtain ⟨file?, d⟩ := read
    obtain ⟨-, hkind, hpath, ⟨hsubscription, rfl⟩ | ⟨hne, file, rfl, hschema⟩⟩ :=
      readFile_eq_ok_iff.1 hread
    · refine ⟨rows, hfiles, ?_, ?_⟩
      · rw [List.map_cons, List.filter_cons_of_neg (by simp [hkind, hsubscription]), hdocuments]
      · rw [List.filter_cons_of_neg (by simp [hsubscription])]
        exact hrows
    · refine ⟨(file, d) :: rows, congrArg _ hfiles, ?_, ?_⟩
      · rw [List.map_cons, List.filter_cons_of_pos (by simp [hkind, hne]), hdocuments]
        rfl
      · rw [List.filter_cons_of_pos (by simp [hne])]
        exact .cons ⟨hkind, hpath, hschema⟩ hrows

/-- The files of a model that was read are those that are made from the files found of queries and
mutations. -/
theorem forall₂_readModel {t : Tree} {paths : Paths} {files : List Found} {m : Model}
    (h : readModel t paths files = .ok m) :
    List.Forall₂ (fun kf file => ∃ interior, schemaFile paths kf.1 kf.2 interior = .ok file)
      ((schemaFiles files).filter (·.1 ≠ .subscription)) m.files := by
  obtain ⟨rows, hfiles, -, hrows⟩ := exists_rows_readModel h
  rw [hfiles, List.forall₂_map_right_iff]
  exact hrows.imp fun _ row ⟨_, _, hschema⟩ => ⟨row.2.interior, hschema⟩

/-- In each model that was read, the actions carry the module and the kind of their file. -/
theorem owned_readModel {t : Tree} {paths : Paths} {files : List Found} {m : Model}
    (h : readModel t paths files = .ok m) : m.Owned := by
  intro file hfile
  obtain ⟨found, -, ⟨interior, hschema⟩, -⟩ :=
    exists_of_forall₂ (forall₂_readModel h).flip (forall₂_readModel h).flip hfile
  exact owned_schemaFile hschema

end Scaffold.Project

namespace Scaffold.Output

open Naming Schema Service Go

/-! ## Calls -/

/-- The parameters of the function for an action, with their types. -/
def parameterList (a : Action) : List (Text × Text) :=
  ("ctx".toList, "context.Context".toList) ::
    a.args.map fun arg => (recase arg.name, parameterType arg.toTypeRef)

/-- Parameters as they are declared. -/
def declaredList (ps : List (Text × Text)) : Text :=
  Text.join ", ".toList (ps.map fun p => p.1 ++ ' ' :: p.2)

/-- Parameters as they are passed on. -/
def passedList (ps : List (Text × Text)) : Text := Text.join ", ".toList (ps.map Prod.fst)

/-- What declares a function with parameters, and with a response or an error as its result. -/
def header (opening : Text) (ps : List (Text × Text)) (response : Text) : Text :=
  opening ++ '(' :: declaredList ps ++ ") (".toList ++ responsePointer response ++
    ", error) \x7b".toList

private theorem join_cons (sep first : Text) (rest : List Text) :
    Text.join sep (first :: rest) = first ++ rest.flatMap (sep ++ ·) := by
  induction rest generalizing first with
  | nil => simp [Text.join]
  | cons next rest ih =>
    have hnext := ih next
    rw [Text.join] at hnext ⊢
    rw [List.intercalate_cons_cons, hnext, List.flatMap_cons]
    simp only [List.append_assoc]

/-- The parameters of a function are declared in the order of its arguments. -/
theorem parameters_eq (a : Action) : parameters a = declaredList (parameterList a) := by
  have hctx : "ctx context.Context".toList = "ctx".toList ++ ' ' :: "context.Context".toList := by
    decide
  calc parameters a
      = ("ctx".toList ++ ' ' :: "context.Context".toList) ++ argumentParameters a.args :=
        congrArg (· ++ argumentParameters a.args) hctx
    _ = declaredList (parameterList a) := by
        rw [declaredList, parameterList, List.map_cons, join_cons, List.map_map, List.flatMap_map,
          argumentParameters]
        simp only [Function.comp_apply, List.append_assoc]

/-- The arguments of a call are the declared parameters, in their order. -/
theorem callArguments_eq (a : Action) : callArguments a = passedList (parameterList a) := by
  rw [passedList, parameterList, List.map_cons, join_cons, callArguments, List.map_map,
    List.flatMap_map]
  simp only [Function.comp_apply]

/-- The text of a function up to its body is a header with the declared parameters. -/
theorem typeText_eq_header (opening : Text) (a : Action) :
    opening ++ typeText a = header opening (parameterList a) a.responseType := by
  rw [typeText, parameters_eq, header]
  simp only [List.append_assoc, List.cons_append]

/-- The signature of a service function is a header with its name. -/
theorem signature_eq_header (a : Action) :
    signature a = header ("func ".toList ++ functionName a) (parameterList a) a.responseType := by
  rw [signature, typeText_eq_header]

/-- The method of an action on a receiver: it passes its parameters on, in their order. -/
def methodText (receiver : Text) (a : Action) : Text :=
  header ("func (r *".toList ++ receiver ++ ") ".toList ++ capitalize a.name) (parameterList a)
      a.responseType ++
    "\n\treturn ".toList ++ a.owner.package ++ '.' :: functionName a ++
    '(' :: passedList (parameterList a) ++ ")\n\x7d\n\n".toList

/-- A method is made for each action whose kind has a receiver. -/
theorem method_eq {a : Action} {receiver : Text} (h : receiver? a.kind = some receiver) :
    method a = methodText receiver a := by
  rw [method, h, methodText, ← typeText_eq_header, ← callArguments_eq]

private theorem infix_flatMap_of_mem {α : Type} (f : α → Text) {a : α} {as : List α} (h : a ∈ as) :
    f a <:+: as.flatMap f :=
  List.infix_of_mem_flatten (List.mem_map_of_mem h)

/-- An action of the table has its method in the resolver file. -/
theorem methodText_infix_resolverFile (s : Setting) {m : Model} {a : Action}
    (ha : a ∈ m.actionTable.values) {receiver : Text} (h : receiver? a.kind = some receiver) :
    methodText receiver a <:+: resolverFile s m := by
  have hmethods := infix_flatMap_of_mem method ha
  rw [← method_eq h]
  exact (hmethods.trans (List.suffix_append _ _).isInfix).trans (List.prefix_append _ _).isInfix

/-- The modules of all files are imported. -/
theorem importLine_infix_resolverHeader (s : Setting) {m : Model} {file : SchemaFile}
    (h : file ∈ m.files) : importLine (s.moduleImport file.moduleDir) <:+: resolverHeader s m := by
  have hmem : s.moduleImport file.moduleDir ∈ moduleImports s m.files := by
    rw [moduleImports, Table.mem_keys_ofList, List.map_map]
    exact List.mem_map_of_mem (f := fun f => s.moduleImport f.moduleDir) h
  have hlines := infix_flatMap_of_mem importLine hmem
  exact ((hlines.trans (List.suffix_append _ _).isInfix).trans
    (List.prefix_append _ _).isInfix).trans (List.prefix_append _ _).isInfix

/-! ## Agreement -/

variable {m : Model} {a : Action}

/-- The actions of the files of a module and a kind are those that carry them. -/
theorem flatMap_actions_filter (hm : m.Owned) (id : GroupId) :
    (m.files.filter (idOf · = id)).flatMap SchemaFile.actions =
      m.actions.filter fun b => (⟨b.owner, b.kind⟩ : GroupId) = id := by
  have hid : ∀ file ∈ m.files, ∀ b ∈ file.actions, (⟨b.owner, b.kind⟩ : GroupId) = idOf file := by
    intro file hfile b hb
    obtain ⟨howner, hkind⟩ := hm file hfile b hb
    rw [howner, hkind]
    rfl
  unfold Model.actions
  generalize m.files = files at hid ⊢
  induction files with
  | nil => rfl
  | cons file files ih =>
    have hfile := hid file List.mem_cons_self
    rw [List.flatMap_cons, List.filter_append, ← ih fun f hf => hid f (List.mem_cons_of_mem file hf)]
    by_cases h : idOf file = id
    · have hall : (file.actions.filter fun b => (⟨b.owner, b.kind⟩ : GroupId) = id) = file.actions :=
        List.filter_eq_self.2 fun b hb => by simpa [h] using hfile b hb
      rw [List.filter_cons_of_pos (by simpa using h), List.flatMap_cons, hall]
    · have hnone : (file.actions.filter fun b => (⟨b.owner, b.kind⟩ : GroupId) = id) = [] := by
        refine List.filter_eq_nil_iff.2 fun b hb => ?_
        rw [hfile b hb]
        simpa using h
      rw [List.filter_cons_of_neg (by simpa using h), hnone, List.nil_append]

/-- The group of an action of the table has it. -/
theorem mem_groupOf (hm : m.Owned) (ha : a ∈ m.actionTable.values) :
    a ∈ (groupOf ⟨a.owner, a.kind⟩ (m.files.filter (idOf · = ⟨a.owner, a.kind⟩))).actions := by
  have hlast : m.actions.reverse.find? (·.name = a.name) = some a :=
    Table.mem_values_ofList_map.1 ha
  obtain ⟨-, before, after, hcut, hbefore⟩ := List.find?_eq_some_iff_append.1 hlast
  rw [groupOf, Table.mem_values_ofList_map, flatMap_actions_filter hm, ← List.filter_reverse, hcut,
    List.filter_append, List.filter_cons_of_pos (by simp), List.find?_append,
    List.find?_eq_none.2, Option.none_or, List.find?_cons_of_pos (by simp)]
  intro b hb
  simpa using hbefore b (List.mem_filter.1 hb).1

/-- A service file has a function for each action of its group, with the signature that the action asks
for. -/
theorem exists_function (s : Setting) (responses : Registry) {g : Group} (existing : Option Text)
    (ha : a ∈ g.actions) :
    ∃ f ∈ written responses g (oldFile existing).functions,
      f.name = functionName a ∧ f.signature = signature a ∧
      f.text <:+: (regenerate s responses g existing).content := by
  have hwhole : ∀ f ∈ (oldFile existing).functions, Whole f := by
    unfold oldFile
    split
    · exact fun f hf => whole_of_mem_functions hf
    · nofun
  let sorted := sortFunctions (g.actions.map functionName) (oldFile existing).functions
  obtain ⟨⟨a, old⟩, hclaim, rfl⟩ : ∃ c ∈ claims g.actions sorted.previous, c.1 = a := by
    rw [← map_fst_claims g.actions sorted.previous] at ha
    exact List.mem_map.1 ha
  have hold := (of_mem_claims hclaim).2
  have hmem : successor responses a old ∈ written responses g (oldFile existing).functions :=
    List.mem_append_right _ (List.mem_map_of_mem (f := successorOf responses) hclaim)
  refine ⟨successor responses a old, hmem, ?_, ?_, ?_⟩
  · exact name_successor fun f hf => (of_get?_previous (hold f hf)).2.2
  · exact signature_successor fun f hf => hwhole f (of_get?_previous (hold f hf)).1
  · rw [regenerate_content]
    exact text_infix_layout hmem

/-- A method and the service that it calls agree. For each action of the table that is no subscription
there is exactly one group of its module and kind, and the action is in it. Over any old content the
service file of the group has a function with the signature of the action, which is also read off the
file if the old content was plain and the names are names. The resolver has a method with the same
parameters and results, which calls that function with its parameters in their order; and it imports the
module of the files that have the action. -/
theorem dispatch_agrees (s : Setting) (hm : m.Owned) (ha : a ∈ m.actionTable.values)
    (hkind : a.kind ≠ .subscription) :
    (∃ g, (groups m.files).filter (·.toGroupId = ⟨a.owner, a.kind⟩) = [g] ∧ a ∈ g.actions ∧
      ∀ responses existing,
        signature a <:+: (regenerate s responses g existing).content ∧
        signature a = header ("func ".toList ++ functionName a) (parameterList a) a.responseType ∧
        ∃ f ∈ written responses g (oldFile existing).functions,
          f.name = functionName a ∧ f.signature = signature a ∧
          f.text <:+: (regenerate s responses g existing).content ∧
          ∀ content, existing = some content → Plain content → WellNamed responses g →
            f ∈ (File.parse (regenerate s responses g existing).content).functions) ∧
    (∃ receiver, receiver? a.kind = some receiver ∧ methodText receiver a <:+: resolverFile s m) ∧
    resolverHeader s m <+: resolverFile s m ∧ (∃ file ∈ m.files, a ∈ file.actions) ∧
    ∀ file ∈ m.files, a ∈ file.actions →
      importLine (s.moduleImport file.moduleDir) <:+: resolverHeader s m := by
  -- an action of the table was read from one of the files
  obtain ⟨file, hfile, hmem⟩ : ∃ file ∈ m.files, a ∈ file.actions := by
    have hlast := List.mem_of_find?_eq_some (Table.mem_values_ofList_map.1 ha)
    simpa [Model.actions] using hlast
  have hgroup : m.files.filter (idOf · = ⟨a.owner, a.kind⟩) ≠ [] := by
    obtain ⟨howner, hkindFile⟩ := hm file hfile a hmem
    refine List.ne_nil_of_mem (List.mem_filter.2 ⟨hfile, ?_⟩)
    simp [idOf, howner, hkindFile]
  refine ⟨⟨_, (filter_groups m.files _).trans (if_neg hgroup), mem_groupOf hm ha, ?_⟩, ?_, ?_, ?_, ?_⟩
  · intro responses existing
    obtain ⟨f, hf, hname, hsignature, htext⟩ :=
      exists_function s responses existing (mem_groupOf hm ha)
    refine ⟨?_, signature_eq_header a, f, hf, hname, hsignature, htext, ?_⟩
    · rw [← hsignature]
      exact (List.prefix_append f.signature (f.body ++ ['}'])).isInfix.trans
        (by rwa [← List.append_assoc])
    · rintro content rfl hplain hnamed
      obtain ⟨header, package, hheader, -, -⟩ := hplain.tidy.header
      rw [(tidy_regenerate hnamed.toHasNamedActions hplain.tidy).2]
      rwa [oldFile_of_header hheader] at hf
  · cases h : a.kind with
    | query => exact ⟨_, rfl, methodText_infix_resolverFile s ha (by rw [h]; rfl)⟩
    | mutation => exact ⟨_, rfl, methodText_infix_resolverFile s ha (by rw [h]; rfl)⟩
    | subscription => exact absurd h hkind
  · rw [resolverFile, List.append_assoc]
    exact List.prefix_append _ _
  · exact ⟨file, hfile, hmem⟩
  · exact fun other hother _ => importLine_infix_resolverHeader s hother

/-- A query under one name, which each module declares with a parameter of its own. -/
private def findWare (package parameter : Text) : Action :=
  ⟨"findWare".toList, [⟨⟨"ID".toList, true, false, false⟩, parameter⟩], "WareResponse".toList,
    .query, ⟨"shop".toList, package⟩⟩

private def wareFile (package parameter : Text) : SchemaFile where
  kind := .query
  owner := ⟨"shop".toList, package⟩
  path := ⟨package⟩
  moduleDir := "modules/shop/".toList ++ package
  hasUpload := false
  actions := [findWare package parameter]

/-- Two modules that declare a query of one name. -/
private def wares : Model :=
  ⟨[wareFile "catalog".toList "id".toList, wareFile "stock".toList "wareId".toList], [], .empty⟩

/-- A service of the second module, written when its query had no parameter. -/
private def stockFile : Text :=
  "package stock\n\nfunc FindWareQuery() \x7b\n\treturn &response, nil\n\x7d\n".toList

/-- Two modules with an action each, and a file with other content for one of them. -/
theorem dispatch_agrees_wares :
    let a := findWare "stock".toList "wareId".toList
    a ∈ wares.actionTable.values ∧
      (∃ g, (groups wares.files).filter (·.toGroupId = ⟨a.owner, a.kind⟩) = [g] ∧ a ∈ g.actions ∧
        signature a <:+: (regenerate default .empty g (some stockFile)).content) ∧
      ∃ receiver, receiver? a.kind = some receiver ∧
        methodText receiver a <:+: resolverFile default wares := by
  intro a
  have howned : wares.Owned := by
    intro file hfile b hb
    simp only [wares, List.mem_cons, List.not_mem_nil, or_false] at hfile
    rcases hfile with rfl | rfl <;> obtain rfl := List.mem_singleton.1 hb <;> exact ⟨rfl, rfl⟩
  have hmem : a ∈ wares.actionTable.values := by decide
  obtain ⟨⟨g, hgroup, ha, hservice⟩, hmethod, -⟩ :=
    dispatch_agrees default howned hmem (by decide)
  exact ⟨hmem, ⟨g, hgroup, ha, (hservice .empty (some stockFile)).1⟩, hmethod⟩

end Scaffold.Output
