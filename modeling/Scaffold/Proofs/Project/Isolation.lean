import Mathlib.Data.List.Pairwise
import Mathlib.Data.List.Permutation
import Scaffold.Proofs.Project.Rendering

/-!
# Isolation of modules

All groups are rendered in one loop and staged into one set, but what is staged for a group depends only
on its own files: on the schema files of its module and kind, on the responses of their actions, and on
the service file and the archive that are there. Two runs that agree on these stage the same for the
group, whatever else they generate (`staged_eq_of_agree`).

A group is rendered from these files alone (`renderGroup_congr`), and what is found at the path of one of
its files was staged for it and for no other group (`get?_renderServices_iff`).
-/

namespace Scaffold

namespace Staging

/-- What is found at a path is the one artifact there. -/
theorem get?_eq_some_iff {s : Staging} {p : Path} {a : Artifact} :
    s.get? p = some a ↔ a ∈ s.artifacts ∧ a.path.same p := by
  constructor
  · intro h
    have hsame := List.find?_some h
    exact ⟨List.mem_of_find?_eq_some h, hsame⟩
  · rintro ⟨ha, hsame⟩
    have hsome : (s.get? p).isSome := List.find?_isSome.2 ⟨a, ha, hsame⟩
    obtain ⟨b, hb⟩ := Option.isSome_iff_exists.1 hsome
    have hb' := List.find?_some hb
    have : Std.Symm fun a b : Artifact => ¬ a.path.same b.path :=
      ⟨fun a b h => by rwa [Path.same_comm]⟩
    -- no two staged artifacts have the same path
    have heq : b = a := by
      by_contra hne
      refine s.distinct.forall (List.mem_of_find?_eq_some hb) ha hne ?_
      simp only [Path.same, decide_eq_true_eq] at hsame hb' ⊢
      rw [hb', hsame]
    rw [hb, heq]

end Staging

namespace Service

variable {s : Setting} {responses responses' : Schema.Registry} {g : Group} {as : List Action}

/-- The old functions that actions claim depend on the responses of these actions only. -/
theorem claim_congr
    (h : ∀ a ∈ as, Schema.resultOf responses a.responseType = Schema.resultOf responses' a.responseType)
    (previous : Table Text Go.Function) : claim responses as previous = claim responses' as previous := by
  induction as generalizing previous with
  | nil => rfl
  | cons a as ih =>
    obtain ⟨ha, has⟩ := List.forall_mem_cons.1 h
    have hfate (old : Option Go.Function) : fate responses a old = fate responses' a old := by
      unfold fate
      rw [ha]
    rw [claim, claim, ih has, hfate]

/-- The service file of a group depends on the responses of its actions only. -/
theorem regenerate_congr
    (h : ∀ a ∈ g.actions,
      Schema.resultOf responses a.responseType = Schema.resultOf responses' a.responseType)
    (existing : Option Text) : regenerate s responses g existing = regenerate s responses' g existing := by
  simp only [regenerate, claim_congr h]

end Service

namespace Project

open Schema Service

variable {t t' : Tree} {s : Setting} {responses responses' : Registry} {stamp : Text} {g : Group}
  {id : GroupId} {m m' : Model} {staging staging' : Staging} {report report' : ServiceReport}

/-- The actions of a group come from the files of its module and kind. -/
theorem exists_file_of_mem_group {files : List SchemaFile} (hg : g ∈ groups files) {a : Action}
    (ha : a ∈ g.actions) : ∃ file ∈ files, idOf file = g.toGroupId ∧ a ∈ file.actions := by
  rw [eq_groupOf_of_mem hg] at ha
  obtain ⟨file, hfile, ha⟩ := List.mem_flatMap.1 (Table.mem_of_mem_values_ofList_map ha)
  obtain ⟨hfile, hid⟩ := List.mem_filter.1 hfile
  exact ⟨file, hfile, of_decide_eq_true hid, ha⟩

/-- A group is rendered from the responses of its actions and from its own files. -/
theorem renderGroup_congr
    (hresponses : ∀ a ∈ g.actions, resultOf responses a.responseType = resultOf responses' a.responseType)
    (hservice : readExisting t (servicePath s g.toGroupId) = readExisting t' (servicePath s g.toGroupId))
    (harchive : readExisting t (archivePath s g.toGroupId) = readExisting t' (archivePath s g.toGroupId)) :
    renderGroup t s responses stamp g = renderGroup t' s responses' stamp g := by
  have harchiveOf (leftovers : List Go.Function) :
      archiveOf t s stamp g leftovers = archiveOf t' s stamp g leftovers := by
    simp only [archiveOf, harchive]
  simp only [renderGroup, hservice, harchiveOf, regenerate_congr hresponses]

/-- Rendering fails only where a service file or an archive cannot be read. -/
theorem exists_renderServices_of_readExisting
    (h : ∀ file ∈ m.files, ∃ service archive,
      readExisting t (servicePath s (idOf file)) = .ok service ∧
        readExisting t (archivePath s (idOf file)) = .ok archive)
    (stamp : Text) (staging : Staging) : ∃ out, renderServices t s m stamp staging = .ok out := by
  refine exists_renderServices (fun g hg => ?_) staging
  obtain ⟨file, hfile, hid⟩ := exists_file_of_mem_groups hg
  obtain ⟨service, old, hservice, hold⟩ := h file hfile
  rw [hid] at hservice hold
  obtain ⟨archive, harchive⟩ : ∃ archive, archiveOf t s stamp g
      (regenerate s m.responses g service).leftovers = .ok archive := by
    unfold archiveOf
    split
    · exact ⟨none, rfl⟩
    · exact ⟨_, bind_eq_ok_iff.2 ⟨old, hold, rfl⟩⟩
  exact ⟨_, bind_eq_ok_iff.2 ⟨service, hservice, bind_eq_ok_iff.2 ⟨archive, harchive, rfl⟩⟩⟩

/-- A run stages the artifacts of all groups, one after the other. -/
theorem artifacts_of_renderServices (hm : ∀ file ∈ m.files, file.owner.IsSingle)
    (h : renderServices t s m stamp .empty = .ok (staging, report)) : ∃ rendered,
      List.Forall₂ (fun g r => renderGroup t s m.responses stamp g = .ok r) (groups m.files)
        rendered ∧
      staging.artifacts = rendered.flatMap RenderedGroup.artifacts := by
  obtain ⟨rendered, hforall, rfl⟩ := of_renderServices h
  exact ⟨rendered, hforall, Staging.artifacts_pushAll_empty (pairwise_rendered hm hforall)⟩

section

variable (hm : ∀ file ∈ m.files, file.owner.IsSingle) (hid : id.owner.IsSingle)
  (h : renderServices t s m stamp .empty = .ok (staging, report))
include hm hid h

/-- What is found at the path of a file of a group was staged for this group. -/
theorem get?_renderServices_iff {n : Text} (hn : n ∈ fileNames id.kind) {a : Artifact} :
    staging.get? (groupFile s id n) = some a ↔
      a.path.same (groupFile s id n) ∧
        ∃ g ∈ groups m.files, g.toGroupId = id ∧
          ∃ r, renderGroup t s m.responses stamp g = .ok r ∧ a ∈ r.artifacts := by
  obtain ⟨rendered, hforall, hartifacts⟩ := artifacts_of_renderServices hm h
  rw [Staging.get?_eq_some_iff, hartifacts, List.mem_flatMap]
  constructor
  -- the path tells which group the artifact is of
  · rintro ⟨⟨r, hr, ha⟩, hsame⟩
    obtain ⟨g, hg, hrender, -⟩ := exists_of_forall₂ hforall.flip hforall.flip hr
    obtain ⟨n', hn', hpath⟩ := exists_path_eq hrender ha
    have hgroup : g.toGroupId = id :=
      (eq_of_same_groupFile (isSingle_of_mem_groups hm hg) hid hn' hn (hpath ▸ hsame)).1
    exact ⟨hsame, g, hg, hgroup, r, hrender, ha⟩
  · rintro ⟨hsame, g, hg, -, r, hrender, ha⟩
    obtain ⟨r', hr', hrender', -⟩ := exists_of_forall₂ hforall hforall hg
    obtain rfl : r = r' := Except.ok.inj (hrender.symm.trans hrender')
    exact ⟨⟨r, hr', ha⟩, hsame⟩

/-- A run stages a service file for each module and kind that a file has, and for no other one. -/
theorem isSome_get?_servicePath_iff :
    (staging.get? (servicePath s id)).isSome ↔ ∃ file ∈ m.files, idOf file = id := by
  have hname : "service_".toList ++ id.kind.name ++ ".go".toList ∈ fileNames id.kind :=
    List.mem_cons_self
  constructor
  · intro hsome
    obtain ⟨a, ha⟩ := Option.isSome_iff_exists.1 hsome
    obtain ⟨-, g, hg, rfl, -⟩ := (get?_renderServices_iff hm hid h hname).1 ha
    exact exists_file_of_mem_groups hg
  · rintro ⟨file, hfile, rfl⟩
    obtain ⟨rendered, hforall, -⟩ := artifacts_of_renderServices hm h
    obtain ⟨r, -, hrender, -⟩ := exists_of_forall₂ hforall hforall (groupOf_mem_groups hfile)
    obtain ⟨existing, -, hservice, -⟩ := of_renderGroup hrender
    refine Option.isSome_iff_exists.2 ⟨r.service, (get?_renderServices_iff hm hid h hname).2
      ⟨?_, _, groupOf_mem_groups hfile, rfl, r, hrender, ?_⟩⟩
    · rw [hservice]
      exact decide_eq_true rfl
    · exact List.mem_append_right _ List.mem_cons_self

end

/-- Two runs with the same setting and stamp stage the same service file and the same archive for a
module and kind if they agree on its schema files, on the responses of the actions in them, and on what
was in the service file and the archive before. The other modules may have other files, other responses
and other service files. -/
theorem staged_eq_of_agree (hm : ∀ file ∈ m.files, file.owner.IsSingle)
    (hm' : ∀ file ∈ m'.files, file.owner.IsSingle) (hid : id.owner.IsSingle)
    (hfiles : m.files.filter (idOf · = id) = m'.files.filter (idOf · = id))
    (hresponses : ∀ file ∈ m.files, idOf file = id → ∀ a ∈ file.actions,
      resultOf m.responses a.responseType = resultOf m'.responses a.responseType)
    (hservice : readExisting t (servicePath s id) = readExisting t' (servicePath s id))
    (harchive : readExisting t (archivePath s id) = readExisting t' (archivePath s id))
    (h : renderServices t s m stamp .empty = .ok (staging, report))
    (h' : renderServices t' s m' stamp .empty = .ok (staging', report')) :
    staging.get? (servicePath s id) = staging'.get? (servicePath s id) ∧
      staging.get? (archivePath s id) = staging'.get? (archivePath s id) ∧
      ((staging.get? (servicePath s id)).isSome ↔ ∃ file ∈ m.files, idOf file = id) := by
  -- both runs have the same groups of this module and kind, and render them to the same artifacts
  have hgroups : (groups m.files).filter (·.toGroupId = id) =
      (groups m'.files).filter (·.toGroupId = id) := by
    rw [filter_groups, filter_groups, hfiles]
  have hgroup (g : Group) : g ∈ groups m.files ∧ g.toGroupId = id ↔
      g ∈ groups m'.files ∧ g.toGroupId = id := by
    simpa using congrArg (g ∈ ·) hgroups
  have hrender (g : Group) (hg : g ∈ groups m.files) (hgid : g.toGroupId = id) :
      renderGroup t s m.responses stamp g = renderGroup t' s m'.responses stamp g := by
    subst hgid
    refine renderGroup_congr (fun a ha => ?_) hservice harchive
    obtain ⟨file, hfile, hfileId, ha⟩ := exists_file_of_mem_group hg ha
    exact hresponses file hfile hfileId a ha
  have hget (n : Text) (hn : n ∈ fileNames id.kind) :
      staging.get? (groupFile s id n) = staging'.get? (groupFile s id n) := by
    refine Option.ext fun a => ?_
    rw [get?_renderServices_iff hm hid h hn, get?_renderServices_iff hm' hid h' hn]
    refine and_congr_right fun _ => exists_congr fun g => ?_
    rw [← and_assoc, ← and_assoc, ← hgroup]
    refine and_congr_right fun ⟨hg, hgid⟩ => ?_
    rw [hrender g hg hgid]
  exact ⟨hget _ List.mem_cons_self, hget _ (List.mem_cons_of_mem _ List.mem_cons_self),
    isSome_get?_servicePath_iff hm hid h⟩

/-! ### Two runs over a market -/

private def marketId (package : Text) : GroupId := ⟨⟨"market".toList, package⟩, .query⟩

/-- A file with one query. -/
private def marketFile (package query : Text) : SchemaFile where
  kind := .query
  owner := (marketId package).owner
  path := ⟨package⟩
  moduleDir := "modules/market/".toList ++ package
  hasUpload := false
  actions := [⟨query, [], query, .query, (marketId package).owner⟩]

/-- A module with a service file. -/
private def marketModule (package content : Text) : Text × Entry :=
  (package, .directory [("service_query.go".toList, .file (.text content))])

private def marketTree (modules : List (Text × Entry)) : Tree :=
  ⟨[("modules".toList, .directory [("market".toList, .directory modules)])]⟩

private def fishTree (fish : Text) : Tree := marketTree [marketModule "fish".toList fish]

private def bothTree (bread fish : Text) : Tree :=
  marketTree [marketModule "bread".toList bread, marketModule "fish".toList fish]

private def marketSetting : Setting := ⟨⟨[]⟩, "api".toList, {}⟩

/-- A service file is there, and no archive. -/
private structure HasServiceOnly (t : Tree) (id : GroupId) (content : Text) : Prop where
  service : readExisting t (servicePath marketSetting id) = .ok (some content)
  archive : readExisting t (archivePath marketSetting id) = .ok none

/-- From what is read at the two paths. -/
private theorem HasServiceOnly.of_readText {t : Tree} {id : GroupId} {content : Text} {p q : Path}
    (hp : servicePath marketSetting id = p) (hq : archivePath marketSetting id = q)
    (hservice : t.readText p = .ok content) (harchive : t.readText q = .error .noSuchFile) :
    HasServiceOnly t id content where
  service := by rw [hp, readExisting, hservice]
  archive := by rw [hq, readExisting, harchive]

private theorem fishTree_fish (fish : Text) :
    HasServiceOnly (fishTree fish) (marketId "fish".toList) fish :=
  .of_readText (p := ⟨"modules/market/fish/service_query.go".toList⟩)
    (q := ⟨"modules/market/fish/service_query_bkp.go".toList⟩) rfl rfl (by cbv) (by cbv)

private theorem bothTree_fish (bread fish : Text) :
    HasServiceOnly (bothTree bread fish) (marketId "fish".toList) fish :=
  .of_readText (p := ⟨"modules/market/fish/service_query.go".toList⟩)
    (q := ⟨"modules/market/fish/service_query_bkp.go".toList⟩) rfl rfl (by cbv) (by cbv)

private theorem bothTree_bread (bread fish : Text) :
    HasServiceOnly (bothTree bread fish) (marketId "bread".toList) bread :=
  .of_readText (p := ⟨"modules/market/bread/service_query.go".toList⟩)
    (q := ⟨"modules/market/bread/service_query_bkp.go".toList⟩) rfl rfl (by cbv) (by cbv)

/-- The second run has another module, whose service file was there and whose response is known. -/
theorem staged_eq_market :
    let fish := marketFile "fish".toList "Catch".toList
    let bread := marketFile "bread".toList "Loaf".toList
    let text : Text := "package fish\n\nfunc Pay() \x7b\n\treturn &response, nil\n\x7d\n".toList
    let id := marketId "fish".toList
    let m : Model := ⟨[fish], [], .empty⟩
    let m' : Model := ⟨[bread, fish], [], .ofList [("Loaf".toList, .unknown)]⟩
    ∃ staging report staging' report',
      renderServices (fishTree text) marketSetting m [] .empty = .ok (staging, report) ∧
        renderServices (bothTree [] text) marketSetting m' [] .empty = .ok (staging', report') ∧
        staging.get? (servicePath marketSetting id) = staging'.get? (servicePath marketSetting id) ∧
        staging.get? (archivePath marketSetting id) = staging'.get? (archivePath marketSetting id) ∧
        ((staging.get? (servicePath marketSetting id)).isSome ↔ ∃ file ∈ m.files, idOf file = id) := by
  intro fish bread text id m m'
  have hfish := fishTree_fish text
  have hfish' := bothTree_fish [] text
  have hbread' := bothTree_bread [] text
  have hreads : ∀ file ∈ m.files, ∃ service archive,
      readExisting (fishTree text) (servicePath marketSetting (idOf file)) = .ok service ∧
        readExisting (fishTree text) (archivePath marketSetting (idOf file)) = .ok archive := by
    intro file hfile
    obtain rfl := List.mem_singleton.1 hfile
    exact ⟨_, _, hfish.service, hfish.archive⟩
  have hreads' : ∀ file ∈ m'.files, ∃ service archive,
      readExisting (bothTree [] text) (servicePath marketSetting (idOf file)) = .ok service ∧
        readExisting (bothTree [] text) (archivePath marketSetting (idOf file)) = .ok archive := by
    intro file hfile
    rcases List.mem_pair.1 hfile with rfl | rfl
    · exact ⟨_, _, hbread'.service, hbread'.archive⟩
    · exact ⟨_, _, hfish'.service, hfish'.archive⟩
  obtain ⟨⟨staging, report⟩, h⟩ := exists_renderServices_of_readExisting hreads [] .empty
  obtain ⟨⟨staging', report'⟩, h'⟩ := exists_renderServices_of_readExisting hreads' [] .empty
  exact ⟨staging, report, staging', report', h, h',
    staged_eq_of_agree (by decide) (by decide) (by decide) (by decide) (by decide)
      (hfish.service.trans hfish'.service.symm) (hfish.archive.trans hfish'.archive.symm) h h'⟩

end Project

end Scaffold
