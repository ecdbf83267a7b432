import Scaffold.Proofs.Service.Archiving
import Scaffold.Proofs.Service.Merging

/-!
# No implementation is lost

A service file with its archive goes through rounds of regeneration with changing actions. As long as
each round has an action for it, an implementation stays in the service file (`exists_function_run`);
from the first round on that has none, it is in the archive under the stamp of that round. The invariant
is `Files.Sound`: the parts of the service file can be moved, its functions have different names, and the
archive was written by the program.
-/

namespace Scaffold.Service

open Text Go Naming

/-! ## Rounds -/

/-- What a regeneration goes by. -/
structure Round where
  setting : Setting
  responses : Schema.Registry
  group : Group
  stamp : Text

/-- The names of a round are names, and its stamp can be part of one. -/
structure Round.Fair (r : Round) : Prop where
  named : WellNamed r.responses r.group
  stamp : ∀ c ∈ r.stamp, isWordChar c

/-- Whether an action of the round has a function of this name. -/
def Round.Claims (r : Round) (name : Text) : Prop := name ∈ r.group.actions.map functionName

/-- A service file and its archive. -/
structure Files where
  service : Text
  archive : Option Text

/-- The files after a round: what is left over of the service file is appended to the archive. -/
def Files.next (files : Files) (r : Round) : Files :=
  let out := regenerate r.setting r.responses r.group (some files.service)
  { service := out.content
    archive := (archive? r.group.owner.package files.archive out.leftovers r.stamp).or files.archive }

/-- The files after some rounds. -/
def Files.run (files : Files) (rounds : List Round) : Files := rounds.foldl Files.next files

/-- The functions of the service file. -/
def Files.functions (files : Files) : List Function := (File.parse files.service).functions

/-- Files that keep what they hold. -/
structure Files.Sound (files : Files) (archived : List Function) : Prop where
  tidy : Tidy (File.parse files.service)
  names : (files.functions.map Function.name).Nodup
  archive : Archives files.archive archived

/-- What a round moves to the archive. -/
def Files.moved (files : Files) (r : Round) : List Function :=
  let out := regenerate r.setting r.responses r.group (some files.service)
  (out.leftovers.filter (!isStub ·)).map (archivedFunction r.stamp)

/-! ## One round -/

variable {files : Files} {archived : List Function} {r : Round}

/-- A round writes the successors and carries the rest over. -/
theorem Files.Sound.functions_next (h : files.Sound archived) (hr : r.Fair) :
    (files.next r).functions = written r.responses r.group files.functions :=
  (tidy_regenerate hr.named.toHasNamedActions h.tidy).2

/-- The functions that are written have different names if the old ones have. -/
theorem nodup_names_written {responses : Schema.Registry} {g : Group} {fs : List Function}
    (hg : WellNamed responses g) (h : (fs.map Function.name).Nodup) :
    ((written responses g fs).map Function.name).Nodup := by
  let sorted := sortFunctions (g.actions.map functionName) fs
  have hsuccessors : (g.actions.map fun a =>
      successor responses a (sorted.previous.get? (functionName a))).map Function.name =
        g.actions.map functionName := by
    rw [List.map_map]
    refine List.map_congr_left fun a _ => ?_
    exact name_successor fun f hf => (of_get?_previous hf).2.2
  have hcarried : (sorted.carried.map Function.name).Nodup := by
    have hsub : sorted.carried.Sublist fs := List.filter_sublist.trans List.filter_sublist
    exact h.sublist (hsub.map _)
  rw [written_eq hg.toHasNamedActions, List.map_append, hsuccessors]
  refine List.nodup_append'.2 ⟨hcarried, hg.functions, ?_⟩
  intro name hname hclaimed
  obtain ⟨f, hf, rfl⟩ := List.mem_map.1 hname
  exact (mem_carried.1 hf).2.2 hclaimed

/-- What is left over was a function of the old file. -/
theorem mem_of_mem_leftovers {s : Setting} {responses : Schema.Registry} {g : Group}
    {existing : Option Text} {f : Function}
    (h : f ∈ (regenerate s responses g existing).leftovers) : f ∈ (oldFile existing).functions := by
  rcases List.mem_append.1 ((perm_leftovers s responses g existing).mem_iff.1 h) with hf | hf
  · obtain ⟨name, hget⟩ := Table.exists_get?_of_mem_values hf
    rw [get?_unclaimed] at hget
    split_ifs at hget
    exact (of_get?_previous hget).1
  · exact (mem_clashing.1 hf).1

/-- A round keeps sound files sound, and takes nothing out of the archive. -/
theorem Files.Sound.next (h : files.Sound archived) (hr : r.Fair) :
    (files.next r).Sound (archived ++ files.moved r) := by
  obtain ⟨header, package, hheader, -, -⟩ := h.tidy.header
  refine ⟨(tidy_regenerate hr.named.toHasNamedActions h.tidy).1, ?_, ?_⟩
  · rw [h.functions_next hr]
    exact nodup_names_written hr.named h.names
  · refine h.archive.append hr.named.package hr.named.package_ne hr.stamp fun f hf => ?_
    have hmem := mem_of_mem_leftovers hf
    rw [oldFile_of_header hheader] at hmem
    exact (h.tidy.functions f hmem).1

/-- No two functions of a sound service file have the same name. -/
theorem Files.Sound.unique (h : files.Sound archived) {f : Function} (hf : f ∈ files.functions) :
    ∀ f' ∈ files.functions, answers f' → f'.name = f.name → f' = f := by
  intro f' hf' _ hname
  exact List.inj_on_of_nodup_map h.names hf' hf hname

/-- An implementation whose action is there stays in the service file. -/
theorem Files.Sound.exists_function_next (h : files.Sound archived) (hr : r.Fair) {f : Function}
    (hf : f ∈ files.functions) (hanswers : answers f) (hstub : isStub f = false)
    (hclaims : r.Claims f.name) :
    ∃ f' ∈ (files.next r).functions, f'.name = f.name ∧ SameBody f' f := by
  rw [h.functions_next hr]
  exact exists_successor r.responses hf hanswers hstub (h.unique hf) hclaims

/-- An implementation whose action is gone moves to the archive. -/
theorem Files.Sound.mem_moved (h : files.Sound archived) {f : Function}
    (hf : f ∈ files.functions) (hanswers : answers f) (hstub : isStub f = false)
    (hclaims : ¬ r.Claims f.name) : archivedFunction r.stamp f ∈ files.moved r := by
  obtain ⟨header, package, hheader, -, -⟩ := h.tidy.header
  have hperm := perm_leftovers r.setting r.responses r.group (some files.service)
  rw [oldFile_of_header hheader] at hperm
  refine List.mem_map_of_mem (List.mem_filter.2 ⟨hperm.mem_iff.2 (List.mem_append_left _ ?_), ?_⟩)
  · refine Table.mem_values_of_get? (k := f.name) ?_
    rw [get?_unclaimed, if_neg (show f.name ∉ r.group.actions.map functionName from hclaims)]
    exact get?_previous_of_mem _ hf hanswers (h.unique hf)
  · simp [hstub]

/-! ## Runs -/

variable {rounds : List Round}

/-- A run takes nothing out of the archive. -/
theorem Files.Sound.run (h : files.Sound archived) (hrounds : ∀ r ∈ rounds, r.Fair) :
    ∃ moved, (files.run rounds).Sound (archived ++ moved) := by
  induction rounds generalizing files archived with
  | nil =>
    refine ⟨[], ?_⟩
    rw [List.append_nil]
    exact h
  | cons r rest ih =>
    have hnext := h.next (hrounds r List.mem_cons_self)
    obtain ⟨moved, hrest⟩ := ih hnext fun q hq => hrounds q (List.mem_cons_of_mem r hq)
    exact ⟨files.moved r ++ moved, by rwa [← List.append_assoc]⟩

/-- Through rounds that have an action for it, an implementation stays in the service file. -/
theorem Files.Sound.exists_function_run (h : files.Sound archived) (hrounds : ∀ r ∈ rounds, r.Fair)
    {f : Function} (hf : f ∈ files.functions) (hanswers : answers f) (hstub : isStub f = false)
    (hclaims : ∀ r ∈ rounds, r.Claims f.name) :
    ∃ f' ∈ (files.run rounds).functions, f'.name = f.name ∧ SameBody f' f := by
  -- The files stay sound, and the function that is followed has its name and its body after each
  -- round.
  induction rounds generalizing files archived f with
  | nil => exact ⟨f, hf, rfl, rfl⟩
  | cons r rest ih =>
    have hr := hrounds r List.mem_cons_self
    obtain ⟨g, hg, hname, hbody⟩ :=
      h.exists_function_next hr hf hanswers hstub (hclaims r List.mem_cons_self)
    obtain ⟨f', hf', hname', hbody'⟩ := ih (h.next hr)
      (fun q hq => hrounds q (List.mem_cons_of_mem r hq)) hg (hbody.answers.trans hanswers)
      (hbody.isStub.trans hstub) fun q hq => by
        rw [hname]
        exact hclaims q (List.mem_cons_of_mem r hq)
    exact ⟨f', hf', hname'.trans hname, Eq.trans hbody' hbody⟩

/-- Over a run that starts with a plain service file without an archive, each implementation is in the
service file as long as every round has an action for it, and from the first round on that has none, it
is in the archive under a name with the stamp of that round. -/
theorem implementation_preserved {content : Text} (hplain : Plain content)
    (hnames : ((File.parse content).functions.map Function.name).Nodup)
    (hrounds : ∀ r ∈ rounds, r.Fair) {f : Function} (hf : f ∈ (File.parse content).functions)
    (hanswers : answers f) (hstub : isStub f = false) :
    let files := Files.run ⟨content, none⟩ rounds
    ((∀ r ∈ rounds, r.Claims f.name) →
      ∃ f' ∈ (File.parse files.service).functions, f'.name = f.name ∧ SameBody f' f) ∧
    ∀ before r after, rounds = before ++ r :: after → (∀ q ∈ before, q.Claims f.name) →
      ¬ r.Claims f.name → ∃ archive, files.archive = some archive ∧
        ∃ f' ∈ (File.parse archive).functions,
          f'.name = archivedName r.stamp f.name ∧ SameBody f' f := by
  intro files
  have hsound : Files.Sound ⟨content, none⟩ [] := ⟨hplain.tidy, hnames, .empty⟩
  refine ⟨hsound.exists_function_run hrounds hf hanswers hstub, ?_⟩
  rintro before r after rfl hbefore hlost
  have hfairBefore : ∀ q ∈ before, q.Fair := fun q hq => hrounds q (by simp [hq])
  have hfairAfter : ∀ q ∈ after, q.Fair := fun q hq => hrounds q (by simp [hq])
  -- up to round `r` the implementation is in the service file; `r` moves it; later rounds only
  -- append
  obtain ⟨moved, hsoundBefore⟩ := hsound.run hfairBefore
  obtain ⟨g, hg, hname, hbody⟩ :=
    hsound.exists_function_run hfairBefore hf hanswers hstub hbefore
  have hmoved := hsoundBefore.mem_moved hg (hbody.answers.trans hanswers)
    (hbody.isStub.trans hstub) (r := r) (by rwa [hname])
  obtain ⟨more, hsoundAfter⟩ := (hsoundBefore.next (hrounds r (by simp))).run hfairAfter
  have hrun : files = ((Files.run ⟨content, none⟩ before).next r).run after := by
    show List.foldl _ _ _ = _
    rw [List.foldl_append]
    rfl
  have harchive := hsoundAfter.archive
  rw [← hrun] at harchive
  have hmem : archivedFunction r.stamp g ∈
      [] ++ moved ++ (Files.run ⟨content, none⟩ before).moved r ++ more := by
    simp [hmoved]
  obtain ⟨archive, hfiles, hfunctions⟩ := harchive.exists_of_mem hmem
  refine ⟨archive, hfiles, archivedFunction r.stamp g, ?_, ?_, hbody⟩
  · rwa [hfunctions]
  · show archivedName r.stamp g.name = _
    rw [hname]

/-- A service file with one implementation. -/
private def invoiceFile : Text :=
  "package invoices\n\nfunc PayQuery() \x7b\n\treturn &response, nil\n\x7d\n".toList

private def payQuery : Function :=
  ⟨none, "func ".toList, "PayQuery".toList, "() \x7b".toList, "\n\treturn &response, nil\n".toList⟩

/-- A round for queries of these names. -/
private def invoiceRound (names : List Text) : Round where
  setting := default
  responses := .empty
  group :=
    { owner := ⟨"shop".toList, "invoices".toList⟩
      kind := .query
      hasUpload := false
      actions := names.map fun name => ⟨name, [], "PayResponse".toList, .query, default⟩ }
  stamp := "07032024_090501".toList

/-- An implementation whose action is gone in the second round. -/
theorem implementation_preserved_invoices :
    let files := Files.run ⟨invoiceFile, none⟩ [invoiceRound ["pay".toList], invoiceRound []]
    ∃ archive, files.archive = some archive ∧ ∃ f' ∈ (File.parse archive).functions,
      f'.name = archivedName "07032024_090501".toList payQuery.name ∧ SameBody f' payQuery := by
  -- the kernel is slow to decode strings, so a list of characters takes the place of the text
  have hfile : Plain invoiceFile ∧ ((File.parse invoiceFile).functions.map Function.name).Nodup ∧
      payQuery ∈ (File.parse invoiceFile).functions := by
    unfold invoiceFile payQuery
    repeat rw [String.toList_ofList]
    decide
  obtain ⟨hplain, hnames, hmem⟩ := hfile
  have hfair (names : List Text) (hname : ∀ name ∈ names, IsName name)
      (hdistinct : ((invoiceRound names).group.actions.map functionName).Nodup) :
      (invoiceRound names).Fair := by
    have hpackage : IsName "invoices".toList ∧ "invoices".toList ≠ "func".toList := by decide
    have hresponse : IsName "PayResponse".toList := by decide
    have hstamp : ∀ c ∈ "07032024_090501".toList, isWordChar c := by decide
    refine ⟨⟨⟨fun a ha => ?_, hdistinct, nofun⟩, hpackage.1, hpackage.2⟩, hstamp⟩
    obtain ⟨name, hmem, rfl⟩ := List.mem_map.1 ha
    exact ⟨hname name hmem, nofun, hresponse⟩
  have hpay : (invoiceRound ["pay".toList]).Claims payQuery.name := by
    show payQuery.name ∈ _
    decide
  refine (implementation_preserved hplain hnames ?_ hmem (by decide) (by decide)).2
    [invoiceRound ["pay".toList]] (invoiceRound []) [] rfl ?_ List.not_mem_nil
  · simp only [List.forall_mem_cons]
    exact ⟨hfair _ (by decide) (by decide), hfair _ (by simp) (by decide), by simp⟩
  · simpa using hpay

end Scaffold.Service
