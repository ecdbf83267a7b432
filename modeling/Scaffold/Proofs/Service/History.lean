import Mathlib.Data.List.Forall2
import Scaffold.Proofs.Service.Archiving

/-!
# The history of an archive

An archive grows run by run. Whatever functions are left over, and wherever they were read, the archive
only gets longer, and it is read as its header with all implemented leftovers, in the order in which they
came and under their new names (`archive_faithful`). The invariant is that the archive is the layout of
what was archived so far (`archiveAfter_eq`).
-/

namespace Scaffold.Service

open Text Go Naming

/-- What a run hands to the archive: the functions left over, and the stamp of the run. -/
structure Archival where
  leftovers : List Function
  stamp : Text

/-- The leftovers were read off some sources, and the stamp can be part of a name. -/
structure Archival.Fair (a : Archival) : Prop where
  read : ∀ f ∈ a.leftovers, ∃ source, f ∈ (File.parse source).functions
  stamp : ∀ c ∈ a.stamp, isWordChar c

/-- The leftovers that are to be archived, with the stamp of the run. -/
def Archival.due (a : Archival) : List (Text × Function) :=
  (a.leftovers.filter (!isStub ·)).map fun f => (a.stamp, f)

/-- The archive after one run more; if there is nothing to write, it stays. -/
def archiveNext (package : Text) (archive : Option Text) (a : Archival) : Option Text :=
  (archive? package archive a.leftovers a.stamp).or archive

/-- The archive after some runs, where there was none before. -/
def archiveAfter (package : Text) (runs : List Archival) : Option Text :=
  runs.foldl (archiveNext package) none

/-- The function `g` of an archive is the function of `d` under the name that carries its stamp. -/
structure IsArchived (d : Text × Function) (g : Function) : Prop where
  name : g.name = archivedName d.1 d.2.name
  signature : g.signature = d.2.opening ++ archivedName d.1 d.2.name ++ d.2.parameters
  body : g.body = d.2.body

/-! ## What is written -/

/-- The archive of some functions, if there are any. -/
def archiveOf (package : Text) (fs : List Function) : Option Text :=
  if fs = [] then none else some (layout (archiveClause package) [] fs)

/-- What a run adds to the archive. -/
def Archival.moved (a : Archival) : List Function :=
  (a.leftovers.filter (!isStub ·)).map (archivedFunction a.stamp)

/-- A run appends to what is archived. -/
theorem archiveNext_archiveOf (package : Text) (fs : List Function) (a : Archival) :
    archiveNext package (archiveOf package fs) a = archiveOf package (fs ++ a.moved) := by
  -- the base of the new archive is the old one, whether or not there was one
  have hbase : archiveBase package ((archiveOf package fs).getD []) =
      layout (archiveClause package) [] fs := by
    unfold archiveOf
    split_ifs with hnil
    · rw [hnil]
      exact archiveBase_nil package
    · exact archiveBase_layout package package fs
  unfold archiveNext archive? Archival.moved
  cases hdue : a.leftovers.filter (!isStub ·) with
  | nil => simp
  | cons f rest =>
    have hne : fs ++ (f :: rest).map (archivedFunction a.stamp) ≠ [] := by simp
    show some (archiveBase package _ ++ _) = _
    rw [hbase, layout_append_archived, archiveOf, if_neg hne]

/-- After some runs the archive holds what they moved there. -/
theorem archiveAfter_eq (package : Text) (runs : List Archival) :
    archiveAfter package runs = archiveOf package (runs.flatMap Archival.moved) := by
  induction runs using List.reverseRecOn with
  | nil => rfl
  | append_singleton runs a ih =>
    rw [archiveAfter, List.foldl_concat]
    show archiveNext package (archiveAfter package runs) a = _
    rw [ih, archiveNext_archiveOf, List.flatMap_append, List.flatMap_singleton]

/-- Archives of more functions begin with those of fewer. -/
theorem archiveOf_append {package old : Text} {fs : List Function} (h : old ∈ archiveOf package fs)
    (gs : List Function) : ∃ new ∈ archiveOf package (fs ++ gs), old <+: new := by
  unfold archiveOf at h ⊢
  split_ifs at h with hnil
  · cases h
  · obtain rfl := Option.some.inj h
    have hne : fs ++ gs ≠ [] := fun happend => hnil (List.append_eq_nil_iff.1 happend).1
    rw [if_neg hne]
    refine ⟨_, rfl, ?_⟩
    rw [layout, layout, List.flatMap_append, ← List.append_assoc]
    exact List.prefix_append _ _

/-! ## What is read again -/

/-- What a run moves can be written to an archive. -/
theorem Archival.Fair.whole {a : Archival} (h : a.Fair) : ∀ g ∈ a.moved, Whole g := by
  intro g hg
  obtain ⟨f, hf, rfl⟩ := List.mem_map.1 hg
  obtain ⟨source, hsource⟩ := h.read f (List.mem_filter.1 hf).1
  exact whole_archivedFunction h.stamp (whole_of_mem_functions hsource)

/-- What is due is moved, one function after the other. -/
theorem Archival.isArchived (a : Archival) : List.Forall₂ IsArchived a.due a.moved := by
  unfold due moved
  induction a.leftovers.filter (!isStub ·) with
  | nil => exact .nil
  | cons f rest ih => exact .cons ⟨rfl, rfl, rfl⟩ ih

/-- Each due function is archived by one moved function, in order. -/
theorem isArchived_flatMap (runs : List Archival) :
    List.Forall₂ IsArchived (runs.flatMap Archival.due) (runs.flatMap Archival.moved) := by
  induction runs with
  | nil => exact .nil
  | cons a runs ih => exact List.rel_append a.isArchived ih

/-- Over any runs, an archive begins with what it was after fewer runs. There is one as soon as a run
leaves an implemented function over, and it is read as the build constraint and the package clause with
these functions below them, in their order, each with its old body and with its new name in its old
signature, and nothing else. -/
theorem archive_faithful {package : Text} (hname : IsName package) (hfunc : package ≠ "func".toList)
    {runs : List Archival} (hruns : ∀ a ∈ runs, a.Fair) :
    (∀ before, before <+: runs → ∀ old ∈ archiveAfter package before,
      ∃ new ∈ archiveAfter package runs, old <+: new) ∧
    (archiveAfter package runs = none ↔ runs.flatMap Archival.due = []) ∧
    ∀ archive ∈ archiveAfter package runs, ∃ fs,
      File.parse archive =
        { header := some ("//go:build ignore\n\npackage ".toList ++ package)
          package := some package, functions := fs, declarations := [] } ∧
      List.Forall₂ IsArchived (runs.flatMap Archival.due) fs := by
  have hmoved := isArchived_flatMap runs
  refine ⟨?_, ?_, fun archive harchive => ⟨runs.flatMap Archival.moved, ?_, hmoved⟩⟩
  -- an archive grows by what the later runs move
  · rintro before ⟨after, rfl⟩ old hold
    rw [archiveAfter_eq] at hold ⊢
    rw [List.flatMap_append]
    exact archiveOf_append hold _
  · have hnone : archiveOf package (runs.flatMap Archival.moved) = none ↔
        runs.flatMap Archival.moved = [] := by simp [archiveOf]
    rw [archiveAfter_eq, hnone, ← List.length_eq_zero_iff, ← hmoved.length_eq,
      List.length_eq_zero_iff]
  · rw [archiveAfter_eq, archiveOf] at harchive
    split_ifs at harchive with hnil
    · cases harchive
    · obtain rfl := Option.some.inj harchive
      refine parse_layout (isHeaderText_archiveClause hname hfunc) (by simp) fun g hg => ?_
      obtain ⟨a, ha, hga⟩ := List.mem_flatMap.1 hg
      exact (hruns a ha).whole g hga

/-- A method with a comment above it, and a stub. -/
private def shelfFile : Text :=
  ("package shelf\n\n// LoadQuery loads.\nfunc (s *Store) LoadQuery(id string) error \x7b\n" ++
    "\treturn nil\n\x7d\n\nfunc DropQuery() \x7b\n\tpanic(fmt.Errorf(\"not implemented\"))\n" ++
    "\x7d\n").toList

private def loadQuery : Function where
  leadingComment := some "// LoadQuery loads.".toList
  opening := "func (s *Store) ".toList
  name := "LoadQuery".toList
  parameters := "(id string) error \x7b".toList
  body := "\n\treturn nil\n".toList

/-- A run that leaves all functions of the file over. -/
private def shelfRun (stamp : Text) : Archival := ⟨(File.parse shelfFile).functions, stamp⟩

/-- One method, archived by two runs. -/
theorem archive_faithful_shelf :
    let runs := [shelfRun "01022024_101112".toList, shelfRun "02022024_101112".toList]
    ∃ archive ∈ archiveAfter "shelf".toList runs, List.Forall₂ IsArchived
      [("01022024_101112".toList, loadQuery), ("02022024_101112".toList, loadQuery)]
      (File.parse archive).functions := by
  intro runs
  have hfair (stamp : Text) (hstamp : ∀ c ∈ stamp, isWordChar c) : (shelfRun stamp).Fair := by
    refine ⟨fun f hf => ⟨shelfFile, ?_⟩, hstamp⟩
    simpa only [shelfRun] using hf
  have hruns : ∀ a ∈ runs, a.Fair := by
    simp only [runs, List.forall_mem_cons]
    exact ⟨hfair _ (by decide), hfair _ (by decide), by simp⟩
  have hdue : runs.flatMap Archival.due =
      [("01022024_101112".toList, loadQuery), ("02022024_101112".toList, loadQuery)] := by
    -- the kernel is slow to decode strings, so lists of characters take their place
    unfold runs shelfRun shelfFile loadQuery
    rw [String.toList_append, String.toList_append]
    repeat rw [String.toList_ofList]
    decide
  have hne : runs.flatMap Archival.due ≠ [] := by
    rw [hdue]
    exact List.cons_ne_nil _ _
  have hname : IsName "shelf".toList := by decide
  obtain ⟨-, hnone, hread⟩ := archive_faithful hname (by decide) hruns
  obtain ⟨archive, harchive⟩ := Option.ne_none_iff_exists'.1 fun h => hne (hnone.1 h)
  obtain ⟨fs, hfile, hfs⟩ := hread archive harchive
  rw [hdue] at hfs
  exact ⟨archive, harchive, by rw [hfile]; exact hfs⟩

end Scaffold.Service
