import Scaffold.Proofs.Service.Preservation

/-!
# Service files that nobody edited

A file that only the generator wrote holds untouched stubs below its header, so a round has nothing to
keep in it and writes all its stubs afresh (`Round.output_untouched`). By induction on the rounds, the
file is the header of the first round with the stubs of the last one (`serviceAfter_eq`): what came
between leaves no trace.
-/

namespace Scaffold.Service

open Text Go Naming

/-- What a round makes of a service file. -/
def Round.output (r : Round) (existing : Option Text) : Regenerated :=
  regenerate r.setting r.responses r.group existing

/-- The service file after some rounds, where there was none before and nobody edits it in between. -/
def serviceAfter (rounds : List Round) : Option Text :=
  rounds.foldl (fun existing r => some (r.output existing).content) none

/-- The stub of an action in a round. -/
def Round.stubOf (r : Round) (a : Action) : Function :=
  stubFunction a (Schema.resultOf r.responses a.responseType)

/-- The stubs of a round. -/
def Round.stubs (r : Round) : List Function := r.group.actions.map r.stubOf

/-- A function as the generator writes it where nothing is implemented. -/
structure Untouched (f : Function) : Prop where
  stub : isStub f
  answers : answers f

/-- Stubs are untouched. -/
theorem Round.untouched_of_mem_stubs {r : Round} {f : Function} (h : f ∈ r.stubs) : Untouched f := by
  obtain ⟨a, -, rfl⟩ := List.mem_map.1 h
  exact ⟨isStub_stubFunction a _, answers_stubFunction a _⟩

/-! ## One round -/

/-- Nothing is kept of a stub. -/
theorem fate_of_isStub (responses : Schema.Registry) (a : Action) {old : Option Function}
    (h : ∀ f ∈ old, isStub f) :
    fate responses a old = .stub (stub a (Schema.resultOf responses a.responseType)) ∧
      successor responses a old = stubFunction a (Schema.resultOf responses a.responseType) := by
  have hnone : old.filter (!isStub ·) = none := by
    refine Option.filter_eq_none_iff.2 fun f hf => ?_
    simp [h f hf]
  simp [fate, successor, hnone]

variable {fs : List Function}

/-- What an action claims of untouched functions is a stub, if anything. -/
private theorem isStub_of_mem_claims (hfs : ∀ f ∈ fs, Untouched f) {claimed : List Text}
    {actions : List Action} {a : Action} {old : Option Function}
    (h : (a, old) ∈ claims actions (sortFunctions claimed fs).previous) : ∀ f ∈ old, isStub f := by
  intro f hf
  have hget := (of_mem_claims h).2 f hf
  exact (hfs f (of_get?_previous hget).1).stub

/-- Nothing is carried over from a file of untouched functions. -/
private theorem carried_of_untouched (hfs : ∀ f ∈ fs, Untouched f) (claimed : List Text) :
    (sortFunctions claimed fs).carried = [] := by
  refine List.eq_nil_iff_forall_not_mem.2 fun f hf => ?_
  obtain ⟨hmem, hanswers, -⟩ := mem_carried.1 hf
  rw [(hfs f hmem).answers] at hanswers
  exact absurd hanswers (by decide)

/-- What comes of each claim by its action alone comes of the actions. -/
private theorem map_claims {β : Type} {actions : List Action} {t : Table Text Function}
    {result : Action × Option Function → β} {ofAction : Action → β}
    (h : ∀ a old, (a, old) ∈ claims actions t → result (a, old) = ofAction a) :
    (claims actions t).map result = actions.map ofAction := by
  conv_rhs => rw [← map_fst_claims actions t, List.map_map]
  exact List.map_congr_left fun c hc => h c.1 c.2 hc

/-- In the place of untouched functions a round writes its own stubs. -/
theorem written_of_untouched (r : Round) (hfs : ∀ f ∈ fs, Untouched f) :
    written r.responses r.group fs = r.stubs := by
  rw [written, carried_of_untouched hfs, List.nil_append]
  exact map_claims fun a _ hold => (fate_of_isStub r.responses a (isStub_of_mem_claims hfs hold)).2

/-- A round over a file of untouched functions writes its stubs below what stood above them, counts
nothing but stubs, and has nothing for an archive. -/
theorem Round.output_untouched (r : Round) {existing : Option Text}
    (h : ∀ f ∈ (oldFile existing).functions, Untouched f) :
    (r.output existing).content =
        layout ((oldFile existing).header.getD (freshClause r.setting r.group))
          (oldFile existing).declarations r.stubs ∧
      (r.output existing).tally = ⟨r.group.actions.length, 0, 0, 0⟩ ∧
      ∀ package backup stamp, archive? package backup (r.output existing).leftovers stamp = none := by
  refine ⟨?_, ?_, fun package backup stamp => ?_⟩
  · rw [Round.output, regenerate_content, written_of_untouched r h]
  · show tally _ _ = _
    rw [claim_eq, carried_of_untouched h]
    -- every action finds a stub or nothing, so every fate is a stub
    have hfates (t : Table Text Function) (ht : t =
        (sortFunctions (r.group.actions.map functionName) (oldFile existing).functions).previous) :
        (claims r.group.actions t).map (fun c => fate r.responses c.1 c.2) =
          r.group.actions.map fun a => .stub (stub a (Schema.resultOf r.responses a.responseType)) :=
      map_claims fun a _ hold => (fate_of_isStub r.responses a (isStub_of_mem_claims h (ht ▸ hold))).1
    rw [hfates _ rfl]
    simp [tally, List.countP_map, Function.comp_def]
  · have hleftovers : (r.output existing).leftovers.filter (!isStub ·) = [] := by
      refine List.filter_eq_nil_iff.2 fun f hf => ?_
      simp [(h f (mem_of_mem_leftovers hf)).stub]
    rw [archive?, hleftovers]

/-! ## All rounds -/

/-- A file of a new header and stubs is read as them. -/
theorem oldFile_stubs {s : Setting} {g : Group} {r : Round} (hname : IsName g.owner.package)
    (hfunc : g.owner.package ≠ "func".toList)
    (himports : ∀ path ∈ freshImports s g.hasUpload, IsQuotable path)
    (hr : WellNamed r.responses r.group) :
    oldFile (some (layout (freshClause s g) [] r.stubs)) =
      { header := some (freshClause s g), package := some g.owner.package
        functions := r.stubs, declarations := [] } := by
  have hstubs : ∀ f ∈ r.stubs, Whole f := by
    intro f hf
    rw [← written_of_untouched r (List.forall_mem_nil _)] at hf
    exact (whole_written hr.toHasNamedActions (List.forall_mem_nil _) f hf).1
  have hblocks : ∀ block ∈ ([] : List Text), IsBlock block := List.forall_mem_nil _
  have hparse := parse_layout (isHeaderText_freshClause hname hfunc himports) hblocks hstubs
  exact (oldFile_of_header (congrArg File.header hparse)).trans hparse

section

variable {rounds : List Round} (hrounds : ∀ r ∈ rounds, WellNamed r.responses r.group)
  (himports : ∀ r ∈ rounds.head?, ∀ path ∈ freshImports r.setting r.group.hasUpload, IsQuotable path)

include hrounds himports

/-- After some rounds the file holds the header of the first one and the stubs of the last one, and is
read as them. -/
theorem serviceAfter_eq {first last : Round} (hfirst : rounds.head? = some first)
    (hlast : rounds.getLast? = some last) :
    serviceAfter rounds = some (layout (freshClause first.setting first.group) [] last.stubs) ∧
      oldFile (serviceAfter rounds) =
        { header := some (freshClause first.setting first.group)
          package := some first.group.owner.package, functions := last.stubs, declarations := [] } := by
  -- The last round is split off: the file it finds holds the stubs of the round before.
  induction rounds using List.reverseRecOn generalizing last with
  | nil => cases hfirst
  | append_singleton before r ih =>
    obtain rfl : r = last := by simpa using hlast
    have hfair := hrounds first (List.mem_of_head? hfirst)
    have hafter : serviceAfter (before ++ [r]) = some (r.output (serviceAfter before)).content := by
      rw [serviceAfter, List.foldl_concat]
      rfl
    have hcontent : serviceAfter (before ++ [r]) =
        some (layout (freshClause first.setting first.group) [] r.stubs) := by
      rw [hafter]
      rcases List.eq_nil_or_concat before with rfl | ⟨front, q, hbefore⟩
      · obtain rfl : r = first := by simpa using hfirst
        have hnone : ∀ f ∈ (oldFile none).functions, Untouched f := List.forall_mem_nil _
        exact congrArg some (r.output_untouched hnone).1
      · have hhead : before.head? = some first := by
          rw [hbefore] at hfirst ⊢
          simpa [List.head?_append] using hfirst
        have hlast : before.getLast? = some q := by simp [hbefore]
        obtain ⟨-, hold⟩ := ih (fun q hq => hrounds q (List.mem_append_left _ hq))
          (by simpa [hhead] using himports first hfirst) hhead hlast
        have hstubs : ∀ f ∈ (oldFile (serviceAfter before)).functions, Untouched f := by
          rw [hold]
          exact fun f hf => Round.untouched_of_mem_stubs hf
        rw [(r.output_untouched hstubs).1, hold]
        rfl
    refine ⟨hcontent, ?_⟩
    rw [hcontent]
    exact oldFile_stubs hfair.package hfair.package_ne (himports first hfirst) (hrounds r (by simp))

/-- The file never holds anything but stubs. -/
theorem untouched_serviceAfter : ∀ f ∈ (oldFile (serviceAfter rounds)).functions, Untouched f := by
  cases hfirst : rounds.head? with
  | none =>
    obtain rfl := List.head?_eq_none_iff.1 hfirst
    exact List.forall_mem_nil _
  | some first =>
    have hne := List.ne_nil_of_mem (List.mem_of_head? hfirst)
    rw [(serviceAfter_eq hrounds himports hfirst (List.getLast?_eq_getLast_of_ne_nil hne)).2]
    exact fun f hf => Round.untouched_of_mem_stubs hf

end

/-- A service file that nobody edits does not depend on its history: after any rounds, starting without
a file, it is the new header of the first round with the stubs of the last one in their order. No round
leaves anything for the archive, and each counts a stub for each action and nothing else. -/
theorem untouched_history {rounds : List Round} {first last : Round}
    (hrounds : ∀ r ∈ rounds, WellNamed r.responses r.group) (hfirst : rounds.head? = some first)
    (hlast : rounds.getLast? = some last)
    (himports : ∀ path ∈ freshImports first.setting first.group.hasUpload, IsQuotable path) :
    serviceAfter rounds =
        some (freshHeader first.setting first.group ++ last.group.actions.flatMap fun a =>
          stub a (Schema.resultOf last.responses a.responseType)) ∧
      ∀ before r after, rounds = before ++ r :: after →
        let out := r.output (serviceAfter before)
        (∀ package backup stamp, archive? package backup out.leftovers stamp = none) ∧
          out.tally = { stubs := r.group.actions.length, kept := 0, drifted := 0, carried := 0 } := by
  have hhead : ∀ r ∈ rounds.head?, ∀ path ∈ freshImports r.setting r.group.hasUpload,
      IsQuotable path := by
    rw [hfirst]
    rintro r ⟨⟩
    exact himports
  refine ⟨?_, ?_⟩
  · rw [(serviceAfter_eq hrounds hhead hfirst hlast).1, freshHeader_eq]
    have hstubs : last.stubs.flatMap verbatim = last.group.actions.flatMap fun a =>
        stub a (Schema.resultOf last.responses a.responseType) := by
      rw [Round.stubs, List.flatMap_map]
      exact congrArg (List.flatMap · _) (funext fun a => verbatim_stubFunction a _)
    rw [layout, hstubs]
    simp
  · rintro before r after rfl
    have hbefore : ∀ q ∈ before.head?, ∀ path ∈ freshImports q.setting q.group.hasUpload,
        IsQuotable path := by
      intro q hq
      exact hhead q (by simp [List.head?_append, Option.mem_def.1 hq])
    obtain ⟨-, htally, harchive⟩ := r.output_untouched <| untouched_serviceAfter
      (fun q hq => hrounds q (List.mem_append_left _ hq)) hbefore
    exact ⟨harchive, htally⟩

/-- Rounds over parcels: an action that gets a second argument, and one that is gone in the end. -/
private def parcelRound (late : Bool) : Round where
  setting := default
  responses := if late then Table.empty.put "TraceResponse".toList ⟨"TraceResult".toList, true, true, true⟩
    else .empty
  group :=
    { owner := ⟨"post".toList, "parcels".toList⟩
      kind := .mutation
      hasUpload := late
      actions :=
        ⟨"trace".toList, ⟨⟨"ID".toList, true, false, false⟩, "id".toList⟩ ::
          (if late then [⟨⟨"Int".toList, false, true, false⟩, "depth".toList⟩] else []),
          "TraceResponse".toList, .mutation, ⟨"post".toList, "parcels".toList⟩⟩ ::
        (if late then []
          else [⟨"lose".toList, [], "LoseResponse".toList, .mutation, ⟨"post".toList, "parcels".toList⟩⟩]) }
  stamp := "07032024_090501".toList

/-- A round with one action, and one where its arguments have changed. -/
theorem untouched_history_parcels :
    let first := parcelRound false
    let last := parcelRound true
    serviceAfter [first, last] =
        some (freshHeader first.setting first.group ++ last.group.actions.flatMap fun a =>
          stub a (Schema.resultOf last.responses a.responseType)) ∧
      (last.output (serviceAfter [first])).tally = ⟨1, 0, 0, 0⟩ := by
  have hnamed (late : Bool) : WellNamed (parcelRound late).responses (parcelRound late).group := by
    refine ⟨⟨fun a ha => ?_, by decide +revert, by decide +revert⟩, by decide +revert,
      by decide +revert⟩
    have hnames : (∀ arg ∈ a.args, IsName arg.name ∧ IsName arg.typeName) ∧ IsName a.name ∧
        IsName a.responseType := by
      revert a
      cases late <;> decide
    exact ⟨hnames.2.1, hnames.1, hnames.2.2⟩
  have hrounds : ∀ r ∈ [parcelRound false, parcelRound true], WellNamed r.responses r.group := by
    simp [hnamed]
  obtain ⟨hcontent, hsteps⟩ := untouched_history hrounds rfl rfl (by decide)
  exact ⟨hcontent, (hsteps [parcelRound false] _ [] rfl).2⟩

end Scaffold.Service
