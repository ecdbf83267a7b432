import Mathlib.Computability.TuringMachine.StackTuringMachine
import Mathlib.Data.List.Permutation
import Scaffold.Proofs.Disk.Interrupting
import Scaffold.Proofs.Go.Whole
import Scaffold.Proofs.Project.Rendering
import Scaffold.Proofs.Service.Preservation

/-!
# Runs that stop halfway

A function that no action claims any more leaves the service file and goes to the archive, and these
are two files. Because the archive is staged right before the service file, a run can stop at any
point of its commit and each implementation is in one of the two (`safe_of_stopped`).
-/

namespace Scaffold.Project

open Schema Service

/-- What a run keeps if its commit stops after the first `k` of the staged artifacts `as`. -/
structure Safe (t t' : Tree) (s : Setting) (stamp : Text) (m : Model) (as : List Artifact) (k : Nat) :
    Prop where
  /-- Files that are none of these artifacts, and no drafts, are as before. -/
  others : ∀ l, (∀ a ∈ as.take k, t.view.place? a.path ≠ some l) →
    (∀ a ∈ as, t.view.place? a.draftPath ≠ some l) →
    ∀ content, t'.find? l = some (.file content) ↔ t.find? l = some (.file content)
  /-- The artifacts are written. -/
  written : ∀ a ∈ as.take k, t'.readText a.path = .ok a.content
  /-- Each implementation that is left over is in the service file, as it was, or in the archive,
  under its new name. -/
  implementations : ∀ g ∈ groups m.files, ∃ existing,
    readExisting t (servicePath s g.toGroupId) = .ok existing ∧
    ∀ f ∈ (regenerate s m.responses g existing).leftovers, isStub f = false →
      (∃ content, t'.readText (servicePath s g.toGroupId) = .ok content ∧ f.text <:+: content) ∨
      ∃ content, t'.readText (archivePath s g.toGroupId) = .ok content ∧
        f.renamed (archivedName stamp f.name) <:+: content

variable {t t' : Tree} {s : Setting} {stamp : Text} {m : Model} {g : Group} {f : Go.Function}

/-- What is left over stands in the old service file. -/
theorem exists_readText_of_leftover {p : Path} {existing : Option Text}
    (hexisting : readExisting t p = .ok existing)
    (hf : f ∈ (regenerate s m.responses g existing).leftovers) :
    ∃ content, t.readText p = .ok content ∧ f.text <:+: content := by
  have hmem := mem_of_mem_leftovers hf
  unfold oldFile at hmem
  split at hmem
  · next content hcontent =>
    obtain ⟨rfl, -⟩ := Option.filter_eq_some_iff.1 hcontent
    refine ⟨content, ?_, Go.text_infix_of_mem_functions hmem⟩
    unfold readExisting at hexisting
    split at hexisting
    · next hread =>
      rw [hread, Option.some.inj (Except.ok.inj hexisting)]
    · cases hexisting
    · cases hexisting
  · exact absurd hmem List.not_mem_nil

variable {root : Path} {config : Config} {p : Plan}

/-- The archive of a group with an implementation left over is staged right before its service file. -/
theorem exists_archive_before_service (hs : setting t root config = .ok s) (hm : SeparateFiles s m)
    (h : render t root config stamp m = .ok p) (hg : g ∈ groups m.files) {existing : Option Text}
    (hexisting : readExisting t (servicePath s g.toGroupId) = .ok existing)
    (hf : f ∈ (regenerate s m.responses g existing).leftovers) (hstub : isStub f = false) :
    ∃ before archive service after, p.staging.artifacts = before ++ archive :: service :: after ∧
      archive.path = archivePath s g.toGroupId ∧
      f.renamed (archivedName stamp f.name) <:+: archive.content ∧
      service.path = servicePath s g.toGroupId := by
  obtain ⟨rendered, hrendered, hartifacts⟩ := artifacts_of_render hs hm h
  obtain ⟨r, hr, hrender, -⟩ := exists_of_forall₂ hrendered hrendered hg
  obtain ⟨existing', hexisting', hservice, harchive⟩ := of_renderGroup hrender
  obtain rfl : existing = existing' := Except.ok.inj (hexisting.symm.trans hexisting')
  obtain ⟨content, hcontent, hinfix⟩ := exists_archive harchive hf hstub
  obtain ⟨before, after, hcut⟩ := List.append_of_mem hr
  refine ⟨projectArtifacts s m ++ before.flatMap RenderedGroup.artifacts,
    ⟨archivePath s g.toGroupId, content⟩, r.service, after.flatMap RenderedGroup.artifacts, ?_, rfl,
    hinfix, by rw [hservice]⟩
  rw [hartifacts, hcut, List.flatMap_append, List.flatMap_cons, RenderedGroup.artifacts, hcontent]
  simp

/-- If writing one artifact does not lead another one elsewhere, a commit can stop anywhere: the
artifacts that were reached are written, the other files are as before, and every implementation that
is left over is in its service file or in the archive. A commit that fails has stopped so. -/
theorem safe_of_stopped (hs : setting t root config = .ok s) (hm : SeparateFiles s m)
    (h : render t root config stamp m = .ok p) (hind : Independent t.view p.staging.artifacts) :
    (∀ t' e, p.staging.commit t = (t', .error e) →
      ∃ k < p.staging.size, StoppedAfter p.staging.artifacts k t t') ∧
    ∀ k t', StoppedAfter p.staging.artifacts k t t' →
      Safe t t' s stamp m p.staging.artifacts k := by
  refine ⟨fun t' e hcommit => exists_stoppedAfter_of_error hcommit, fun k t' hstop => ?_⟩
  have hnodup := p.staging.nodup_artifacts
  obtain ⟨-, hwritten⟩ := hstop.realized hind hnodup
  constructor
  case others => exact fun l hplace hdraft => hstop.file_iff hind hnodup hplace hdraft
  case written => exact fun a ha => Artifact.readText_of_isWritten (hwritten a ha)
  case implementations =>
    intro g hg
    obtain ⟨rendered, hrendered, -⟩ := artifacts_of_render hs hm h
    obtain ⟨r, -, hrender, -⟩ := exists_of_forall₂ hrendered hrendered hg
    obtain ⟨existing, hexisting, -, -⟩ := of_renderGroup hrender
    refine ⟨existing, hexisting, fun f hf hstub => ?_⟩
    obtain ⟨before, archive, service, after, hcut, harchive, hinfix, hservice⟩ :=
      exists_archive_before_service hs hm h hg hexisting hf hstub
    -- the archive comes before the service file: either it is written, or the service file is still
    -- the old one
    by_cases hreached : archive ∈ p.staging.artifacts.take k
    · right
      rw [← harchive]
      exact ⟨archive.content, Artifact.readText_of_isWritten (hwritten archive hreached), hinfix⟩
    · left
      obtain ⟨hlater, hnext⟩ := StoppedAfter.notMem_take_of_behind hcut hnodup hreached
      obtain ⟨content, hread, htext⟩ := exists_readText_of_leftover hexisting hf
      rw [← hservice] at hread ⊢
      exact ⟨content, hstop.readText_later hind hnodup (by simp [hcut]) hlater hnext hread, htext⟩

/-! ## Runs -/

/-- The stamp of the runs below. -/
private def stampText : Text := "07032024_090501".toList

/-- A service file with an implementation whose action is gone. -/
private def retiredText : Text :=
  "package user\n\nfunc PayQuery() \x7b\n\treturn &response, nil\n\x7d\n".toList

private def payQuery : Go.Function :=
  ⟨none, "func ".toList, "PayQuery".toList, "() \x7b".toList, "\n\treturn &response, nil\n".toList⟩

private def retired : Tree :=
  ⟨[("modules".toList, .directory [("shop".toList, .directory [("user".toList, .directory
    [("service_query.go".toList, .file (.text retiredText))])])])]⟩

private def retiredConfig : Config := { goModule := some "api".toList }

private def retiredSetting : Setting := ⟨⟨[]⟩, "api".toList, retiredConfig⟩

private def retiredGroup : Group := ⟨⟨⟨"shop".toList, "user".toList⟩, .query⟩, false, []⟩

private def retiredModel : Model := ⟨[⟨.query, retiredGroup.owner, ⟨[]⟩, [], false, []⟩], [], .empty⟩

private theorem setting_retired : setting retired ⟨[]⟩ retiredConfig = .ok retiredSetting := rfl

private theorem separate_retired : SeparateFiles retiredSetting retiredModel where
  modules := by decide
  outputs := by decide
  services := by decide

private theorem readExisting_retired :
    readExisting retired (servicePath retiredSetting retiredGroup.toGroupId) =
      .ok (some retiredText) := by
  have hpath : servicePath retiredSetting retiredGroup.toGroupId =
      ⟨"modules/shop/user/service_query.go".toList⟩ := rfl
  have hread : retired.readText ⟨"modules/shop/user/service_query.go".toList⟩ = .ok retiredText := by
    cbv
  rw [hpath, readExisting, hread]

/-- The one function of the retired service file is left over. -/
private theorem leftovers_retired :
    (regenerate retiredSetting .empty retiredGroup (some retiredText)).leftovers = [payQuery] := by
  -- the kernel is slow to decode strings, so a list of characters takes the place of the text
  have hparse : Text.trim retiredText ≠ [] ∧ (Go.File.parse retiredText).functions = [payQuery] := by
    unfold retiredText payQuery
    repeat rw [String.toList_ofList]
    decide +kernel
  have hold : oldFile (some retiredText) = Go.File.parse retiredText := by
    simp [oldFile, Option.filter, hparse.1]
  have hsorted : sortFunctions [] [payQuery] = ⟨Table.ofList [(payQuery.name, payQuery)], [], []⟩ := by
    unfold payQuery
    repeat rw [String.toList_ofList]
    rfl
  show List.mergeSort (((sortFunctions [] (oldFile (some retiredText)).functions).previous.values) ++
    (sortFunctions [] (oldFile (some retiredText)).functions).clashing) _ = _
  rw [hold, hparse.2, hsorted]
  exact List.mergeSort_singleton _

/-- What a run over the retired project stages, in order. -/
private def retiredArtifacts (schema resolver archive service : Text) : List Artifact :=
  [⟨⟨"graph/schema.graphqls".toList⟩, schema⟩, ⟨⟨"graph/schema.resolvers.go".toList⟩, resolver⟩,
    ⟨⟨"modules/shop/user/service_query_bkp.go".toList⟩, archive⟩,
    ⟨⟨"modules/shop/user/service_query.go".toList⟩, service⟩]

/-- The retired group is rendered. -/
private theorem exists_renderGroup_retired :
    ∃ r, renderGroup retired retiredSetting .empty stampText retiredGroup = .ok r := by
  have hpath : archivePath retiredSetting retiredGroup.toGroupId =
      ⟨"modules/shop/user/service_query_bkp.go".toList⟩ := rfl
  have hread : retired.readText ⟨"modules/shop/user/service_query_bkp.go".toList⟩ =
      .error .noSuchFile := by
    cbv
  have hmissing : readExisting retired (archivePath retiredSetting retiredGroup.toGroupId) =
      .ok none := by
    rw [hpath, readExisting, hread]
  obtain ⟨archive, harchive⟩ : ∃ archive, archiveOf retired retiredSetting stampText retiredGroup
      (regenerate retiredSetting .empty retiredGroup (some retiredText)).leftovers = .ok archive := by
    rw [leftovers_retired]
    exact ⟨_, bind_eq_ok_iff.2 ⟨none, hmissing, rfl⟩⟩
  exact ⟨_, bind_eq_ok_iff.2 ⟨_, readExisting_retired, bind_eq_ok_iff.2 ⟨_, harchive, rfl⟩⟩⟩

/-- The retired project is rendered. -/
private theorem exists_render_retired : ∃ p schema resolver archive service,
    render retired ⟨[]⟩ retiredConfig stampText retiredModel = .ok p ∧
      p.staging.artifacts = retiredArtifacts schema resolver archive service := by
  obtain ⟨r, hr⟩ := exists_renderGroup_retired
  have hgroups : groups retiredModel.files = [retiredGroup] := rfl
  have hrender : ∀ g ∈ groups retiredModel.files,
      ∃ r, renderGroup retired retiredSetting retiredModel.responses stampText g = .ok r := by
    rw [hgroups]
    exact fun g hg => List.mem_singleton.1 hg ▸ ⟨r, hr⟩
  obtain ⟨p, hp⟩ := exists_render setting_retired hrender
  -- what is staged follows from what a run stages in general
  obtain ⟨rendered, hrendered, hartifacts⟩ := artifacts_of_render setting_retired separate_retired hp
  rw [hgroups] at hrendered
  obtain ⟨r', hr', rfl⟩ : ∃ r', renderGroup retired retiredSetting .empty stampText retiredGroup =
      .ok r' ∧ rendered = [r'] := by
    obtain ⟨r', rest, hr', hrest, rfl⟩ := List.forall₂_cons_left_iff.1 hrendered
    exact ⟨r', hr', by rw [List.forall₂_nil_left_iff.1 hrest]⟩
  obtain ⟨existing, hexisting, hservice, harchive'⟩ := of_renderGroup hr'
  obtain rfl := Except.ok.inj (hexisting.symm.trans readExisting_retired)
  obtain ⟨content, hcontent, -⟩ := exists_archive (f := payQuery) harchive'
    (by simp [leftovers_retired]) (by decide)
  rw [List.flatMap_singleton, RenderedGroup.artifacts, hcontent, hservice] at hartifacts
  exact ⟨p, _, _, content, _, hp, hartifacts⟩

/-- A run that stops after it wrote the archive and before it writes the service file. -/
theorem safe_of_stopped_retired : ∃ p t',
    render retired ⟨[]⟩ retiredConfig stampText retiredModel = .ok p ∧
      Independent retired.view p.staging.artifacts ∧
      StoppedAfter p.staging.artifacts 3 retired t' ∧
      Safe retired t' retiredSetting stampText retiredModel p.staging.artifacts 3 ∧
      (regenerate retiredSetting .empty retiredGroup (some retiredText)).leftovers = [payQuery] := by
  obtain ⟨p, schema, resolver, archive, service, hp, hartifacts⟩ := exists_render_retired
  have hind : Independent retired.view p.staging.artifacts := by
    rw [hartifacts]
    exact (areApart_iff.1 (by cbv)).independent
  have hcommit : (commitAll ((retiredArtifacts schema resolver archive service).take 3) retired
      ⟨0, 0⟩).2 = .ok ⟨3, 0⟩ := by
    cbv
  rw [← hartifacts] at hcommit
  have hstop : StoppedAfter p.staging.artifacts 3 retired _ :=
    ⟨_, _, Prod.ext rfl hcommit, .inl rfl⟩
  exact ⟨p, _, hp, hind, hstop,
    (safe_of_stopped setting_retired separate_retired hp hind).2 3 _ hstop, leftovers_retired⟩

/-- Nothing is left out but foreign directories. -/
private def bareScan : ScanRules := { respectGitignore := some false }

/-- The patterns of a bare scan are read. -/
private theorem exists_readPattern : ∃ rules, (leftOut bareScan).mapM readPattern = .ok rules ∧
    Ignore.setError? ((rules.filterMap id).map (·.glob)) = none := by
  have hread : (((leftOut bareScan).mapM readPattern).map
      fun rules => (Ignore.setError? ((rules.filterMap id).map (·.glob))).isNone).toOption =
        some true := by
    decide +kernel
  cases hrules : (leftOut bareScan).mapM readPattern with
  | error e =>
    rw [hrules] at hread
    cases hread
  | ok rules =>
    rw [hrules] at hread
    exact ⟨rules, rfl, by simpa [Except.map, Except.toOption] using hread⟩

/-- In a directory with nothing but links there are no files. -/
private theorem discover_links {t : Tree} {root : Path} {l : Location} {entries : List (Text × Entry)}
    (hroot : t.reach .target root = .ok ⟨l, some (.directory entries)⟩)
    (hlinks : ∀ entry ∈ entries, ∃ target, entry.2 = .link target) :
    discover t root bareScan = .ok [] := by
  obtain ⟨rules, hrules, hset⟩ := exists_readPattern
  -- neither a link nor what it leads to is a file to a search that follows no links
  have hfiles (w : Search) (hw : w.tree = t) (hfollow : w.rules.followsLinks = false) (fuel : Nat) :
      w.filesFrom fuel [] [] ⟨root, l, entries⟩ = .ok [] := by
    cases fuel with
    | zero => rfl
    | succ fuel =>
      unfold Search.filesFrom
      rw [hw, hroot]
      refine bind_eq_ok_iff.2 ⟨entries.map fun _ => [], mapM_eq_ok_iff.2 ?_, ?_⟩
      · rw [List.forall₂_map_right_iff, List.forall₂_same]
        rintro ⟨name, entry⟩ hentry
        obtain ⟨target, rfl⟩ := hlinks _ hentry
        refine bind_eq_ok_iff.2 ⟨.other, ?_, rfl⟩
        rw [Search.kind, hfollow]
        rfl
      · have hflat : (entries.map fun _ => ([] : List Path)).flatten = [] := by simp
        rw [hflat]
        rfl
  unfold discover
  rw [hroot]
  dsimp only
  refine bind_eq_ok_iff.2 ⟨rules, hrules, ?_⟩
  rw [hset]
  dsimp only
  split
  · rfl
  · exact bind_eq_ok_iff.2 ⟨[], hfiles _ rfl rfl _, rfl⟩

/-- The configuration of a project whose schema has this name, and stands beside the resolvers. -/
private def bareConfig (schema : Text) : Config where
  goModule := some "api".toList
  paths := { schemaOutput := ⟨schema⟩, resolverOutput := ⟨"resolver.go".toList⟩ }
  scan := bareScan

private def bareSetting (schema : Text) : Setting :=
  ⟨⟨"proj".toList⟩, "api".toList, bareConfig schema⟩

/-- The model of a project without schema files. -/
private def bareModel : Model := ⟨[], [], .empty⟩

/-- A whole run in a project without schema files. -/
private structure BareRun (t : Tree) (schema : Text) (p : Plan) (t' : Tree) : Prop where
  setting : setting t ⟨"proj".toList⟩ (bareConfig schema) = .ok (bareSetting schema)
  model : analyze t ⟨"proj".toList⟩ (bareConfig schema) = .ok bareModel
  separate : SeparateFiles (bareSetting schema) bareModel
  plan : render t ⟨"proj".toList⟩ (bareConfig schema) stampText bareModel = .ok p
  stopped : StoppedAfter p.staging.artifacts 2 t t'

/-- A run over a project with nothing but links, which stages the schema and the resolvers. -/
private theorem exists_bareRun {t t' : Tree} {l : Location} {entries : List (Text × Entry)}
    (schema : Text) (hroot : t.reach .target ⟨"proj".toList⟩ = .ok ⟨l, some (.directory entries)⟩)
    (hlinks : ∀ entry ∈ entries, ∃ target, entry.2 = .link target)
    (houtputs : ¬ ((bareSetting schema).outputPath ⟨schema⟩).same
      ((bareSetting schema).outputPath ⟨"resolver.go".toList⟩))
    (hcommit : commitAll (projectArtifacts (bareSetting schema) bareModel) t ⟨0, 0⟩ =
      (t', .ok ⟨2, 0⟩)) :
    ∃ p, BareRun t schema p t' ∧
      p.staging.artifacts = projectArtifacts (bareSetting schema) bareModel := by
  have hsetting : setting t ⟨"proj".toList⟩ (bareConfig schema) = .ok (bareSetting schema) := rfl
  have hdiscover : discover t ⟨"proj".toList⟩ (bareConfig schema).scan = .ok [] :=
    discover_links hroot hlinks
  have hmodel : analyze t ⟨"proj".toList⟩ (bareConfig schema) = .ok bareModel := by
    rw [analyze, hdiscover]
    rfl
  have hseparate : SeparateFiles (bareSetting schema) bareModel := ⟨nofun, houtputs, nofun⟩
  obtain ⟨p, hp⟩ : ∃ p, render t ⟨"proj".toList⟩ (bareConfig schema) stampText bareModel = .ok p :=
    ⟨_, bind_eq_ok_iff.2 ⟨_, congrArg _ hsetting, rfl⟩⟩
  obtain ⟨rendered, hrendered, hartifacts⟩ := artifacts_of_render hsetting hseparate hp
  obtain rfl : rendered = [] := List.forall₂_nil_left_iff.1 hrendered
  rw [List.flatMap_nil, List.append_nil] at hartifacts
  refine ⟨p, ⟨hsetting, hmodel, hseparate, hp, t', ⟨2, 0⟩, ?_, .inl rfl⟩, hartifacts⟩
  rw [hartifacts]
  exact hcommit

private def emptyProject : Tree := ⟨[("proj".toList, .directory [])]⟩

private theorem reach_empty : emptyProject.reach .target ⟨"proj".toList⟩ =
    .ok ⟨["proj".toList], some (.directory [])⟩ := by
  cbv

/-- If the schema is put where the draft of the resolvers is put, it is moved away with the draft. -/
private theorem exists_commit_empty (schema resolver : Text) : ∃ t',
    commitAll [⟨⟨"proj/.resolver.go.resolvgen.tmp".toList⟩, schema⟩,
      ⟨⟨"proj/resolver.go".toList⟩, resolver⟩] emptyProject ⟨0, 0⟩ = (t', .ok ⟨2, 0⟩) ∧
    t'.readText ⟨"proj/.resolver.go.resolvgen.tmp".toList⟩ = .error .noSuchFile :=
  ⟨_, Prod.ext rfl (by cbv), by cbv⟩

/-- A project with a link where the draft of `schema.graphqls` is put. It leads to a file outside. -/
private def linkedProject : Tree :=
  ⟨[("notes.txt".toList, .file (.text "old".toList)), ("proj".toList, .directory
    [(".schema.graphqls.resolvgen.tmp".toList, .link "../notes.txt".toList)])]⟩

private theorem reach_linked : linkedProject.reach .target ⟨"proj".toList⟩ = .ok ⟨["proj".toList],
    some (.directory [(".schema.graphqls.resolvgen.tmp".toList, .link "../notes.txt".toList)])⟩ := by
  cbv

/-- Committing to the linked project overwrites the file that the link leads to. -/
private theorem exists_commit_linked (schema resolver : Text) : ∃ t',
    commitAll [⟨⟨"proj/schema.graphqls".toList⟩, schema⟩,
      ⟨⟨"proj/resolver.go".toList⟩, resolver⟩] linkedProject ⟨0, 0⟩ = (t', .ok ⟨2, 0⟩) ∧
    t'.find? ["notes.txt".toList] = some (.file (.text schema)) :=
  -- `cbv` climbs by the equations of `List.tail`, which are imported with the stack machines
  ⟨_, Prod.ext rfl (by cbv), by cbv⟩

/-- The overwritten file is not the place of an artifact or of a draft. -/
private theorem places_linked (schema resolver : Text) :
    ∀ a ∈ [(⟨⟨"proj/schema.graphqls".toList⟩, schema⟩ : Artifact),
      ⟨⟨"proj/resolver.go".toList⟩, resolver⟩],
      linkedProject.view.place? a.path ≠ some ["notes.txt".toList] ∧
        linkedProject.view.place? a.draftPath ≠ some ["notes.txt".toList] := by
  have hplaces : linkedProject.view.place? ⟨"proj/schema.graphqls".toList⟩ =
        some ["proj".toList, "schema.graphqls".toList] ∧
      linkedProject.view.place? ⟨"proj/resolver.go".toList⟩ =
        some ["proj".toList, "resolver.go".toList] := by
    constructor <;> cbv
  have hdrafts (content : Text) :
      linkedProject.view.place? (Artifact.draftPath ⟨⟨"proj/schema.graphqls".toList⟩, content⟩) =
        some ["proj".toList, ".schema.graphqls.resolvgen.tmp".toList] ∧
      linkedProject.view.place? (Artifact.draftPath ⟨⟨"proj/resolver.go".toList⟩, content⟩) =
        some ["proj".toList, ".resolver.go.resolvgen.tmp".toList] := by
    constructor <;> cbv
  intro a ha
  simp only [List.mem_cons, List.not_mem_nil, or_false] at ha
  rcases ha with rfl | rfl
  · rw [hplaces.1, (hdrafts schema).1]
    decide
  · rw [hplaces.2, (hdrafts resolver).2]
    decide

/-- If writing one artifact leads another one elsewhere, a run can destroy a file: the schema, if it is
put where the draft of the resolvers is put, or any file that a link leads to from where a draft is
put. -/
theorem unsafe_runs :
    (∃ p t', BareRun emptyProject ".resolver.go.resolvgen.tmp".toList p t' ∧
      ¬ Safe emptyProject t' (bareSetting ".resolver.go.resolvgen.tmp".toList) stampText bareModel
        p.staging.artifacts 2) ∧
    ∃ p t', BareRun linkedProject "schema.graphqls".toList p t' ∧
      ¬ Safe linkedProject t' (bareSetting "schema.graphqls".toList) stampText bareModel
        p.staging.artifacts 2 := by
  -- the schema is moved away by the draft of the resolvers, or the file behind the link is
  -- overwritten
  constructor
  · obtain ⟨t', hcommit, hgone⟩ := exists_commit_empty (Output.combinedSchema [])
      (Output.resolverFile (bareSetting ".resolver.go.resolvgen.tmp".toList) bareModel)
    obtain ⟨p, hrun, hartifacts⟩ := exists_bareRun ".resolver.go.resolvgen.tmp".toList reach_empty nofun
      (by decide) hcommit
    refine ⟨p, t', hrun, fun hsafe => ?_⟩
    have hwritten := hsafe.written
    rw [hartifacts] at hwritten
    have hread : t'.readText ⟨"proj/.resolver.go.resolvgen.tmp".toList⟩ = _ :=
      hwritten _ List.mem_cons_self
    rw [hgone] at hread
    cases hread
  · obtain ⟨t', hcommit, hnotes⟩ := exists_commit_linked (Output.combinedSchema [])
      (Output.resolverFile (bareSetting "schema.graphqls".toList) bareModel)
    obtain ⟨p, hrun, hartifacts⟩ := exists_bareRun "schema.graphqls".toList reach_linked (by simp)
      (by decide) hcommit
    refine ⟨p, t', hrun, fun hsafe => ?_⟩
    have hplaces := places_linked (Output.combinedSchema [])
      (Output.resolverFile (bareSetting "schema.graphqls".toList) bareModel)
    have hothers := hsafe.others ["notes.txt".toList]
    rw [hartifacts] at hothers
    have hfile := (hothers (fun a ha => (hplaces a ha).1) (fun a ha => (hplaces a ha).2)
      (.text "old".toList)).2 rfl
    rw [hnotes] at hfile
    have hschema : Output.combinedSchema [] ≠ "old".toList := by decide
    exact hschema (by simpa using hfile)

end Scaffold.Project
