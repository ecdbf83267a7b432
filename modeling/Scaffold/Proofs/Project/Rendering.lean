import Scaffold.Proofs.Disk.Stops
import Scaffold.Proofs.Schema.Actions
import Scaffold.Proofs.Service.Grouping
import Scaffold.Project.Generation

/-!
# What a run stages

A run stages the schema, the resolvers, and for each group its archive, if it changes, and its service
file. If these paths are different (`SeparateFiles`), nothing is staged over anything else: the
artifacts stand in this order (`artifacts_of_render`), so that each archive comes right before the
service file that loses its functions.
-/

namespace Scaffold

namespace Path

theorem ofSegment_injective : Function.Injective Component.ofSegment := by
  intro s s' h
  unfold Component.ofSegment at h
  split_ifs at h with hs hs'
  · rw [hs, hs']
  · exact Component.name.inj h

/-- Paths with the same steps end with the same stops. -/
theorem eq_of_same {p q : Path} {front front' back back' : List Text} (h : p.same q)
    (hp : p.stops = front ++ back) (hq : q.stops = front' ++ back')
    (hlength : back.length = back'.length) : back = back' := by
  have hcomponents : p.components = q.components := by simpa [same] using h
  rw [components_eq, components_eq, hp, hq, List.map_append, List.map_append, ← List.append_assoc,
    ← List.append_assoc] at hcomponents
  obtain ⟨-, hback⟩ := List.append_inj' hcomponents (by simpa using hlength)
  exact ofSegment_injective.list_map hback

end Path

namespace Staging

/-- A file that is not staged yet comes last. -/
theorem artifacts_push_of_new {s : Staging} {p : Path} (content : Text)
    (h : ∀ a ∈ s.artifacts, ¬ a.path.same p) :
    (s.push p content).artifacts = s.artifacts ++ [⟨p, content⟩] := by
  obtain ⟨as, hd⟩ := s
  simp only [push] at h ⊢
  clear hd
  induction as with
  | nil => rfl
  | cons a as ih =>
    obtain ⟨ha, has⟩ := List.forall_mem_cons.1 h
    rw [restage, if_neg ha, ih has, List.cons_append]

/-- Pushing files of paths that differ appends them. -/
theorem artifacts_pushAll {s : Staging} {as : List Artifact}
    (h : (s.artifacts ++ as).Pairwise fun a b => ¬ a.path.same b.path) :
    (as.foldl (fun s a => s.push a.path a.content) s).artifacts = s.artifacts ++ as := by
  induction as generalizing s with
  | nil => exact (List.append_nil _).symm
  | cons a as ih =>
    have hpush : (s.push a.path a.content).artifacts = s.artifacts ++ [a] :=
      artifacts_push_of_new _ fun b hb =>
        (List.pairwise_append.1 h).2.2 b hb a List.mem_cons_self
    -- the hypothesis for what was staged, extended by the first file
    rw [List.append_cons, ← hpush] at h
    rw [List.foldl_cons, ih h, hpush, ← List.append_cons]

/-- Artifacts with different paths are staged one after the other. -/
theorem artifacts_pushAll_empty {as : List Artifact}
    (h : as.Pairwise fun a b => ¬ a.path.same b.path) :
    (as.foldl (fun s a => s.push a.path a.content) empty).artifacts = as :=
  artifacts_pushAll (s := empty) h

end Staging

/-- The project and the package of a module are single stops, so that its directory is its own. -/
def ModuleRef.IsSingle (m : ModuleRef) : Prop := IsStop m.project ∧ IsStop m.package

instance (m : ModuleRef) : Decidable m.IsSingle := inferInstanceAs (Decidable (_ ∧ _))

namespace Service

/-! ## The files of a group -/

/-- The names of the files of a group. -/
def fileNames (kind : Kind) : List Text :=
  ["service_".toList ++ kind.name ++ ".go".toList, "service_".toList ++ kind.name ++ "_bkp.go".toList]

/-- The file of a group with a name. -/
def groupFile (s : Setting) (id : GroupId) (n : Text) : Path := (moduleDir s id.owner).join n

theorem isEntryName_of_mem_fileNames {kind : Kind} :
    ∀ n ∈ fileNames kind, IsEntryName n := by
  cases kind <;> decide

/-- The name of a file tells its kind. -/
theorem kind_of_mem_fileNames {kind kind' : Kind} :
    ∀ n ∈ fileNames kind, n ∈ fileNames kind' → kind = kind' := by
  cases kind <;> cases kind' <;> decide

/-- The stops of a file of a group: the modules directory, the project, the package and the name. -/
theorem stops_groupFile {s : Setting} {id : GroupId} {n : Text} (hid : id.owner.IsSingle)
    (hn : n ∈ fileNames id.kind) :
    (groupFile s id n).stops =
      (s.root.join s.config.paths.modulesDir).stops ++ [id.owner.project, id.owner.package, n] := by
  rw [groupFile, (Path.stops_join _ (isEntryName_of_mem_fileNames n hn).isStop).1, moduleDir,
    (Path.stops_join _ hid.2).1, (Path.stops_join _ hid.1).1]
  simp

/-- Files of groups whose modules have single names are the same only if they have one name and belong
to one group. -/
theorem eq_of_same_groupFile {s : Setting} {id id' : GroupId} {n n' : Text}
    (hid : id.owner.IsSingle) (hid' : id'.owner.IsSingle)
    (hn : n ∈ fileNames id.kind) (hn' : n' ∈ fileNames id'.kind)
    (h : (groupFile s id n).same (groupFile s id' n')) : id = id' ∧ n = n' := by
  have hback := Path.eq_of_same h (stops_groupFile hid hn) (stops_groupFile hid' hn') rfl
  obtain ⟨⟨project, package⟩, kind⟩ := id
  obtain ⟨⟨project', package'⟩, kind'⟩ := id'
  simp only [List.cons.injEq, and_true] at hback
  obtain ⟨rfl, rfl, rfl⟩ := hback
  obtain rfl := kind_of_mem_fileNames n hn hn'
  exact ⟨rfl, rfl⟩

/-- No two groups have one module and one kind. -/
theorem pairwise_groups (files : List SchemaFile) :
    (groups files).Pairwise fun g g' => g.toGroupId ≠ g'.toGroupId := by
  have hkeys := (files.foldl addFile .empty).nodup_keys
  rw [Table.keys, List.Nodup, List.pairwise_map] at hkeys
  rw [groups, List.pairwise_map]
  exact hkeys

end Service

namespace Project

open Schema Service

/-! ## Rendered groups -/

/-- The artifacts of a group, in the order in which they are staged. -/
def RenderedGroup.artifacts (r : RenderedGroup) : List Artifact := r.archive.toList ++ [r.service]

/-- Staging groups pushes their artifacts in order. -/
theorem foldl_stage (rs : List RenderedGroup) (staging : Staging) :
    rs.foldl (fun staging r => r.stage staging) staging =
      (rs.flatMap RenderedGroup.artifacts).foldl (fun s a => s.push a.path a.content) staging := by
  induction rs generalizing staging with
  | nil => rfl
  | cons r rs ih =>
    have hstage : r.stage staging =
        r.artifacts.foldl (fun s a => s.push a.path a.content) staging := by
      unfold RenderedGroup.stage RenderedGroup.artifacts
      cases r.archive <;> rfl
    rw [List.foldl_cons, ih, List.flatMap_cons, List.foldl_append, hstage]

variable {t : Tree} {s : Setting} {responses : Registry} {stamp : Text} {g : Group}
  {r : RenderedGroup} {leftovers : List Go.Function} {archive : Option Artifact}

/-- What is rendered for a group. -/
theorem of_renderGroup (h : renderGroup t s responses stamp g = .ok r) :
    ∃ existing, readExisting t (servicePath s g.toGroupId) = .ok existing ∧
      r.service = ⟨servicePath s g.toGroupId, (regenerate s responses g existing).content⟩ ∧
      archiveOf t s stamp g (regenerate s responses g existing).leftovers = .ok r.archive := by
  unfold renderGroup at h
  obtain ⟨existing, hexisting, h⟩ := bind_eq_ok_iff.1 h
  obtain ⟨archive, harchive, h⟩ := bind_eq_ok_iff.1 h
  obtain rfl := Except.ok.inj h
  exact ⟨existing, hexisting, rfl, harchive⟩

/-- The archive of a group is the old one with the leftovers behind it. -/
theorem of_archiveOf (h : archiveOf t s stamp g leftovers = .ok archive) :
    ∃ old, archive = (archive? g.package old leftovers stamp).map
      fun content => ⟨archivePath s g.toGroupId, content⟩ := by
  unfold archiveOf at h
  split at h
  · next hnil =>
    obtain rfl := Except.ok.inj h
    exact ⟨none, by rw [hnil]; rfl⟩
  · obtain ⟨old, -, h⟩ := bind_eq_ok_iff.1 h
    exact ⟨old, (Except.ok.inj h).symm⟩

/-- An archive is written if an implementation is left over, and holds it under its new name. -/
theorem exists_archive (h : archiveOf t s stamp g leftovers = .ok archive) {f : Go.Function}
    (hf : f ∈ leftovers) (hstub : isStub f = false) :
    ∃ content, archive = some ⟨archivePath s g.toGroupId, content⟩ ∧
      f.renamed (archivedName stamp f.name) <:+: content := by
  obtain ⟨old, rfl⟩ := of_archiveOf h
  have hmem : f ∈ leftovers.filter (!isStub ·) := List.mem_filter.2 ⟨hf, by simp [hstub]⟩
  obtain ⟨before, after, hcut⟩ := List.append_of_mem hmem
  unfold archive?
  split
  · next hnil =>
    rw [hnil] at hmem
    exact absurd hmem List.not_mem_nil
  · refine ⟨_, rfl, ?_⟩
    -- the renamed function stands between those before it and those after it
    rw [hcut, List.flatMap_append, List.flatMap_cons, ← List.append_assoc]
    exact ((List.prefix_append _ _).isInfix.trans (List.prefix_append _ _).isInfix).trans
      (List.suffix_append _ _).isInfix

/-- The artifacts of a group are its files, each at most once. -/
theorem exists_fileNames (h : renderGroup t s responses stamp g = .ok r) :
    ∃ ns : List Text, ns.Nodup ∧ ns ⊆ fileNames g.kind ∧
      r.artifacts.map (·.path) = ns.map (groupFile s g.toGroupId) := by
  obtain ⟨existing, -, hservice, harchive⟩ := of_renderGroup h
  obtain ⟨old, harchive⟩ := of_archiveOf harchive
  have hnodup : (fileNames g.kind).Nodup := by
    cases g.kind <;> decide
  unfold RenderedGroup.artifacts
  rw [harchive, hservice]
  cases archive? g.package old (regenerate s responses g existing).leftovers stamp with
  | none => exact ⟨(fileNames g.kind).take 1, hnodup.sublist (List.take_sublist _ _),
      List.take_subset _ _, rfl⟩
  | some content => exact ⟨(fileNames g.kind).reverse, List.pairwise_reverse.2 (hnodup.imp Ne.symm),
      fun n hn => List.mem_reverse.1 hn, rfl⟩

/-- Each artifact of a group is one of its files. -/
theorem exists_path_eq (h : renderGroup t s responses stamp g = .ok r) {a : Artifact}
    (ha : a ∈ r.artifacts) : ∃ n ∈ fileNames g.kind, a.path = groupFile s g.toGroupId n := by
  obtain ⟨ns, -, hsub, hpaths⟩ := exists_fileNames h
  have hmem : a.path ∈ ns.map (groupFile s g.toGroupId) := hpaths ▸ List.mem_map_of_mem ha
  obtain ⟨n, hn, hpath⟩ := List.mem_map.1 hmem
  exact ⟨n, hsub hn, hpath.symm⟩

/-! ## All artifacts -/

variable {m : Model} {rendered : List RenderedGroup}

section

variable (hm : ∀ file ∈ m.files, file.owner.IsSingle)
include hm

/-- The owner of a group is that of one of its files. -/
theorem isSingle_of_mem_groups (hg : g ∈ groups m.files) : g.owner.IsSingle := by
  obtain ⟨file, hfile, hid⟩ := exists_file_of_mem_groups hg
  rw [← hid]
  exact hm file hfile

/-- The artifacts of one group have different paths. -/
theorem pairwise_group (hg : g ∈ groups m.files) (hr : renderGroup t s m.responses stamp g = .ok r) :
    r.artifacts.Pairwise fun a b => ¬ a.path.same b.path := by
  have hsingle := isSingle_of_mem_groups hm hg
  obtain ⟨ns, hnodup, hsub, hpaths⟩ := exists_fileNames hr
  have hfiles : (ns.map (groupFile s g.toGroupId)).Pairwise fun p q => ¬ p.same q := by
    refine List.pairwise_map.2 (hnodup.imp_of_mem fun hn hn' hne hsame => hne ?_)
    exact (eq_of_same_groupFile hsingle hsingle (hsub hn) (hsub hn') hsame).2
  rw [← hpaths] at hfiles
  exact List.pairwise_map.1 hfiles

/-- The artifacts of two groups have different paths. -/
theorem not_same {g' : Group} {r' : RenderedGroup} (hg : g ∈ groups m.files)
    (hg' : g' ∈ groups m.files) (hne : g.toGroupId ≠ g'.toGroupId)
    (hr : renderGroup t s m.responses stamp g = .ok r)
    (hr' : renderGroup t s m.responses stamp g' = .ok r') :
    ∀ a ∈ r.artifacts, ∀ b ∈ r'.artifacts, ¬ a.path.same b.path := by
  intro a ha b hb hsame
  obtain ⟨n, hn, hpath⟩ := exists_path_eq hr ha
  obtain ⟨n', hn', hpath'⟩ := exists_path_eq hr' hb
  rw [hpath, hpath'] at hsame
  exact hne (eq_of_same_groupFile (isSingle_of_mem_groups hm hg) (isSingle_of_mem_groups hm hg') hn
    hn' hsame).1

/-- No two artifacts of groups have one path. -/
theorem pairwise_rendered
    (h : List.Forall₂ (fun g r => renderGroup t s m.responses stamp g = .ok r) (groups m.files)
      rendered) :
    (rendered.flatMap RenderedGroup.artifacts).Pairwise fun a b => ¬ a.path.same b.path := by
  refine List.pairwise_flatMap.2 ⟨fun r hr => ?_, ?_⟩
  · obtain ⟨g, hg, hrender, -⟩ := exists_of_forall₂ h.flip h.flip hr
    exact pairwise_group hm hg hrender
  · refine pairwise_of_forall₂ h (pairwise_groups m.files) fun g hg g' hg' hne r r' hr hr' => ?_
    exact not_same hm hg hg' hne hr hr'

end

/-- The paths of what is generated name different files: modules have single names, and what is
generated for the whole project stands elsewhere than what is generated for a group. -/
structure SeparateFiles (s : Setting) (m : Model) : Prop where
  modules : ∀ file ∈ m.files, IsEntryName file.owner.project ∧ IsEntryName file.owner.package
  outputs : ¬ (s.outputPath s.config.paths.schemaOutput).same
    (s.outputPath s.config.paths.resolverOutput)
  services : ∀ file ∈ m.files, ∀ p ∈ [servicePath s (idOf file), archivePath s (idOf file)],
    ¬ (s.outputPath s.config.paths.schemaOutput).same p ∧
      ¬ (s.outputPath s.config.paths.resolverOutput).same p

namespace SeparateFiles

variable (hm : SeparateFiles s m)
include hm

theorem isSingle : ∀ file ∈ m.files, file.owner.IsSingle :=
  fun file hfile => ⟨(hm.modules file hfile).1.isStop, (hm.modules file hfile).2.isStop⟩

/-- What is generated for the whole project stands elsewhere than the artifacts of a group. -/
theorem outputs_group (hg : g ∈ groups m.files) (hr : renderGroup t s m.responses stamp g = .ok r)
    {a : Artifact} (ha : a ∈ r.artifacts) :
    ¬ (s.outputPath s.config.paths.schemaOutput).same a.path ∧
      ¬ (s.outputPath s.config.paths.resolverOutput).same a.path := by
  obtain ⟨file, hfile, hid⟩ := exists_file_of_mem_groups hg
  obtain ⟨n, hn, hpath⟩ := exists_path_eq hr ha
  refine hm.services file hfile a.path ?_
  rw [hpath, hid]
  exact List.mem_map_of_mem (f := groupFile s g.toGroupId) hn

end SeparateFiles

variable {root : Path} {config : Config} {p : Plan}

theorem config_of_setting (h : setting t root config = .ok s) : s.config = config := by
  obtain ⟨goModule, -, h⟩ := bind_eq_ok_iff.1 h
  exact (congrArg Setting.config (Except.ok.inj h)).symm

/-- What is generated for the whole project: the schema and the resolvers. -/
def projectArtifacts (s : Setting) (m : Model) : List Artifact :=
  [⟨s.outputPath s.config.paths.schemaOutput, Output.combinedSchema m.documents⟩,
    ⟨s.outputPath s.config.paths.resolverOutput, Output.resolverFile s m⟩]

/-- The services are staged one group after the other. -/
theorem of_renderServices {staging staging' : Staging} {report : ServiceReport}
    (h : renderServices t s m stamp staging = .ok (staging', report)) : ∃ rendered,
      List.Forall₂ (fun g r => renderGroup t s m.responses stamp g = .ok r) (groups m.files)
        rendered ∧
      staging' = (rendered.flatMap RenderedGroup.artifacts).foldl
        (fun s a => s.push a.path a.content) staging := by
  unfold renderServices at h
  obtain ⟨rendered, hrendered, hstaging⟩ := bind_eq_ok_iff.1 h
  obtain ⟨rfl, -⟩ := Prod.mk.inj (Except.ok.inj hstaging)
  exact ⟨rendered, mapM_eq_ok_iff.1 hrendered, foldl_stage rendered staging⟩

/-- The schema and the resolvers are staged first, and then the services. -/
theorem of_render (hs : setting t root config = .ok s)
    (h : render t root config stamp m = .ok p) : ∃ rendered,
      List.Forall₂ (fun g r => renderGroup t s m.responses stamp g = .ok r) (groups m.files)
        rendered ∧
      p.staging = (projectArtifacts s m ++ rendered.flatMap RenderedGroup.artifacts).foldl
        (fun s a => s.push a.path a.content) .empty := by
  obtain rfl := config_of_setting hs
  unfold render at h
  obtain ⟨s', hs', h⟩ := bind_eq_ok_iff.1 h
  obtain rfl : s = s' := Except.ok.inj (hs.symm.trans (mapError_eq_ok_iff.1 hs'))
  obtain ⟨⟨staging, report⟩, hservices, h⟩ := bind_eq_ok_iff.1 h
  obtain rfl := Except.ok.inj h
  obtain ⟨rendered, hrendered, rfl⟩ := of_renderServices (mapError_eq_ok_iff.1 hservices)
  exact ⟨rendered, hrendered, by rw [List.foldl_append]; rfl⟩

/-- The services are rendered if all groups are. -/
theorem exists_renderServices (h : ∀ g ∈ groups m.files, ∃ r,
    renderGroup t s m.responses stamp g = .ok r) (staging : Staging) :
    ∃ out, renderServices t s m stamp staging = .ok out := by
  obtain ⟨rendered, hrendered⟩ := exists_mapM_eq_ok h
  exact ⟨_, bind_eq_ok_iff.2 ⟨rendered, hrendered, rfl⟩⟩

/-- A run renders its files if it renders all groups. -/
theorem exists_render (hs : setting t root config = .ok s)
    (h : ∀ g ∈ groups m.files, ∃ r, renderGroup t s m.responses stamp g = .ok r) :
    ∃ p, render t root config stamp m = .ok p := by
  obtain ⟨out, hout⟩ := exists_renderServices h _
  exact ⟨_, bind_eq_ok_iff.2 ⟨s, congrArg _ hs, bind_eq_ok_iff.2 ⟨out, congrArg _ hout, rfl⟩⟩⟩

/-- A run stages the schema, the resolvers, and the artifacts of all groups, in this order. -/
theorem artifacts_of_render (hs : setting t root config = .ok s) (hm : SeparateFiles s m)
    (h : render t root config stamp m = .ok p) : ∃ rendered,
      List.Forall₂ (fun g r => renderGroup t s m.responses stamp g = .ok r) (groups m.files)
        rendered ∧
      p.staging.artifacts = projectArtifacts s m ++ rendered.flatMap RenderedGroup.artifacts := by
  obtain ⟨rendered, hforall, hstaging⟩ := of_render hs h
  refine ⟨rendered, hforall, ?_⟩
  -- no path is the same as another one, so each artifact is staged behind the ones before
  have hgroup : ∀ a ∈ rendered.flatMap RenderedGroup.artifacts,
      ¬ (s.outputPath s.config.paths.schemaOutput).same a.path ∧
        ¬ (s.outputPath s.config.paths.resolverOutput).same a.path := by
    intro a ha
    obtain ⟨r, hr, ha⟩ := List.mem_flatMap.1 ha
    obtain ⟨g, hg, hrender, -⟩ := exists_of_forall₂ hforall.flip hforall.flip hr
    exact hm.outputs_group hg hrender ha
  have hpairwise : (projectArtifacts s m ++ rendered.flatMap RenderedGroup.artifacts).Pairwise
      fun a b => ¬ a.path.same b.path := by
    refine List.pairwise_cons.2 ⟨fun a ha => ?_, List.pairwise_cons.2 ⟨fun a ha => (hgroup a ha).2,
      pairwise_rendered hm.isSingle hforall⟩⟩
    rcases List.mem_cons.1 ha with rfl | ha
    · exact hm.outputs
    · exact (hgroup a ha).1
  rw [hstaging, Staging.artifacts_pushAll_empty hpairwise]

end Project

end Scaffold
