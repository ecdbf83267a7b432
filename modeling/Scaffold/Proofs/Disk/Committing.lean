import Mathlib.Data.List.Nodup
import Scaffold.Proofs.Disk.Writing

/-!
# Committing artifacts one after the other

Whether an artifact is written is a matter of the view (`Artifact.isWritten_eq`), and what becomes of
that when other files are written follows from the course of its path. If writing one artifact does not
lead another one elsewhere (`Independent`), a step of a commit keeps what the steps before it achieved
(`Realized.commit`), and so does a whole commit (`Realized.commitAll`). If moreover the paths lead to
different files (`Apart`) and none climbs out of a directory that is missing (`View.Steady`), the steps
find each artifact as it was before the commit (`Artifact.isWritten_before`).
-/

namespace Scaffold

open Scaffold.Tree (steps linkLimit)
open View (Keeps)

namespace View

variable {v v' : View} {p : Path} {touched : Set Location}

/-- The way to a path is the front of its course. -/
theorem passed_wayTo_subset (v : View) (p : Path) : (v.wayTo p).passed ⊆ (v.courseTo p).passed := by
  rcases (steps p.text).eq_nil_or_concat with hnil | ⟨way, last, hlast⟩
  · simp [wayTo, courseTo, hnil]
  · rw [wayTo, courseTo, hlast, List.concat_eq_append, List.dropLast_concat, course_append,
      Course.andThen]
    split
    · exact List.Subset.refl _
    · exact List.subset_append_left _ _

/-- The place of a path is on its course, and at its end if no link stands there. -/
theorem mem_passed_of_place? {l : Location} (h : v.place? p = some l) :
    l ∈ (v.courseTo p).passed ∧
      ((∀ target, v l ≠ some (.link target)) → (v.courseTo p).passed.getLast? = some l) := by
  unfold place? at h
  split at h
  · next n last links hlast hgoal =>
    obtain rfl := Option.some.inj h
    obtain ⟨way, hsteps⟩ := List.getLast?_eq_some_iff.1 hlast
    rw [wayTo, hsteps, List.dropLast_concat] at hgoal
    have hend : (v.course linkLimit [] way).goal.map (·.1) = some last := by rw [hgoal]; rfl
    obtain ⟨rest, hpassed, hrest⟩ := passed_append_name (n := n) hend
    rw [courseTo, hsteps, hpassed]
    refine ⟨List.mem_append_right _ List.mem_cons_self, fun hlink => ?_⟩
    rw [hrest hlink, List.getLast?_concat]
  · cases h

/-- A path that leads to a file goes over it. -/
theorem mem_passed_of_reach (hv : v.Rooted) {l : Location} {content : Content}
    (h : v.reach .target p = .ok l) (hl : v l = some (.file content)) :
    l ∈ (v.courseTo p).passed :=
  List.mem_of_getLast? (getLast?_passed hv hv.root (walk_of_reach h) hl)

/-- A path to a file goes over directories and links, and ends at the file. -/
theorem sight_of_mem_passed (hv : v.Rooted) {l m : Location} {content : Content}
    (h : v.reach .target p = .ok l) (hl : v l = some (.file content))
    (hm : m ∈ (v.courseTo p).passed) : v m = some .directory ∨
      (∃ target, v m = some (.link target)) ∨ (v.courseTo p).passed.getLast? = some m := by
  obtain ⟨front, hpassed, hopen⟩ := exists_passed_eq hv hv.root (walk_of_reach h) hl
  rw [courseTo, hpassed] at hm ⊢
  rcases List.mem_append.1 hm with hm | hm
  · exact (hopen m hm).imp_right .inl
  · rw [List.mem_singleton.1 hm, List.getLast?_concat]
    exact .inr (.inr rfl)

/-- A path that leads to a file leads there still. -/
theorem reach_of_keeps (hv : v.Rooted) (h : Keeps touched v v')
    (hclear : ∀ l ∈ (v.courseTo p).passed, l ∉ touched) {l : Location} {content : Content}
    (hreach : v.reach .target p = .ok l) (hl : v l = some (.file content)) :
    v'.reach .target p = .ok l ∧ v' l = some (.file content) := by
  have hwalk := walk_of_reach hreach
  have hsettled : v.Settled (v.walk .target linkLimit [] (steps p.text)) := by
    rw [hwalk]
    refine ⟨by simp, fun m hm => ?_⟩
    rw [← Except.ok.inj hm, hl]
    simp
  refine ⟨reach_of_reach hreach ((walk_of_keeps .target h hclear hsettled).trans hwalk), ?_⟩
  exact (h.eq_iff (hclear l (mem_passed_of_reach hv hreach hl)) (by simp)).2 hl

/-- A path that leads nowhere, for another reason than that something is missing, leads nowhere
still. -/
theorem reach_error_of_keeps (h : Keeps touched v v')
    (hclear : ∀ l ∈ (v.courseTo p).passed, l ∉ touched) {cause : Cause} (hcause : cause ≠ .noSuchFile)
    (hreach : v.reach .target p = .error cause) : v'.reach .target p = .error cause := by
  unfold reach at hreach ⊢
  split at hreach
  · exact hreach
  · rw [← hreach]
    refine walk_of_keeps .target h hclear ⟨?_, ?_⟩ <;> rw [hreach]
    · simpa using hcause
    · simp

/-- The course of a path never leaves a directory that is missing. -/
def Steady (v : View) (p : Path) : Prop :=
  (v.courseTo p).passed.Pairwise fun l m => v l = none → l <+: m

end View

namespace Artifact

variable {a : Artifact} {t t' : Tree} {v v' : View} {touched : Set Location}

/-! ## What is written already -/

/-- An artifact is written if its path leads to a file of its content, and is not if it leads
nowhere. -/
theorem isWritten_eq (t : Tree) (a : Artifact) : a.isWritten t =
    match t.view.reach .target a.path with
    | .ok l => .ok (t.view l = some (.file (.text a.content)))
    | .error .noSuchFile => .ok false
    | .error cause => .error (.unreadable a.path cause) := by
  unfold isWritten Tree.lookup
  cases hreach : t.reach .target a.path with
  | error cause =>
    rw [Tree.reach_eq_error_iff.1 hreach]
    cases cause <;> rfl
  | ok s =>
    obtain ⟨hview, hfound⟩ := Tree.reach_eq_ok_iff.1 hreach
    rw [hview]
    dsimp only
    rw [Tree.view_eq, ← hfound]
    cases hs : s.found with
    | none => simp [hs, bind, Except.bind]
    | some e => cases e <;> simp [hs, bind, Except.bind, Entry.sight]

/-- An artifact is written if its path leads to a file with its content. -/
theorem isWritten_eq_true_iff : a.isWritten t = .ok true ↔
    ∃ l, t.view.reach .target a.path = .ok l ∧ t.view l = some (.file (.text a.content)) := by
  rw [isWritten_eq]
  cases hreach : t.view.reach .target a.path with
  | ok l => simp
  | error cause => cases cause <;> simp

/-- A path that leads to a file with a text is read. -/
theorem readText_of_reach {p : Path} {l : Location} {text : Text}
    (hreach : t.view.reach .target p = .ok l) (hl : t.view l = some (.file (.text text))) :
    t.readText p = .ok text := by
  rw [Tree.view_eq] at hl
  obtain ⟨e, he, hsight⟩ := Option.map_eq_some_iff.1 hl
  have hfile : e = .file (.text text) := by
    cases e with
    | file content => exact congrArg Entry.file (Sight.file.inj hsight)
    | link | directory => cases hsight
  have hspot : t.reach .target p = .ok ⟨l, some e⟩ := Tree.reach_eq_ok_iff.2 ⟨hreach, he.symm⟩
  simp [Tree.readText, Tree.read, Tree.lookup, hspot, hfile, bind, Except.bind]

/-- A path that is read leads to a file with the text. -/
theorem exists_reach_of_readText {p : Path} {text : Text} (h : t.readText p = .ok text) :
    ∃ l, t.view.reach .target p = .ok l ∧ t.view l = some (.file (.text text)) := by
  unfold Tree.readText Tree.read Tree.lookup at h
  cases hreach : t.reach .target p with
  | error cause =>
    rw [hreach] at h
    cases h
  | ok s =>
    obtain ⟨hview, hfound⟩ := Tree.reach_eq_ok_iff.1 hreach
    refine ⟨s.location, hview, ?_⟩
    rw [hreach] at h
    rw [Tree.view_eq, ← hfound]
    cases hs : s.found with
    | none => simp [hs, bind, Except.bind] at h
    | some e =>
      cases e with
      | file content =>
        cases content with
        | text s =>
          have htext : s = text := by simpa [hs, bind, Except.bind] using h
          rw [htext]
          rfl
        | binary bytes => simp [hs, bind, Except.bind] at h
      | link | directory => simp [hs, bind, Except.bind] at h

/-- A written artifact is read back. -/
theorem readText_of_isWritten (h : a.isWritten t = .ok true) : t.readText a.path = .ok a.content := by
  obtain ⟨l, hreach, hl⟩ := isWritten_eq_true_iff.1 h
  exact readText_of_reach hreach hl

/-- What is written stays written, if its course is left alone. -/
theorem isWritten_of_keeps (h : Keeps touched t.view t'.view)
    (hclear : ∀ l ∈ (t.view.courseTo a.path).passed, l ∉ touched) (hw : a.isWritten t = .ok true) :
    a.isWritten t' = .ok true := by
  obtain ⟨l, hreach, hl⟩ := isWritten_eq_true_iff.1 hw
  exact isWritten_eq_true_iff.2 ⟨l, View.reach_of_keeps t.rooted_view h hclear hreach hl⟩

/-- What is found while others are written was so before, if the course is left alone and never leaves
a directory that was missing. -/
theorem isWritten_before (h : Keeps touched t.view t'.view)
    (hclear : ∀ l ∈ (t.view.courseTo a.path).passed, l ∉ touched)
    (hsteady : t.view.Steady a.path) {w : Bool} (hw : a.isWritten t' = .ok w) :
    a.isWritten t = .ok w := by
  cases w with
  | true =>
    obtain ⟨l, hreach, hl⟩ := isWritten_eq_true_iff.1 hw
    have hwalk := View.walk_of_keeps_file h hclear hsteady t.rooted_view t'.rooted_view
      t'.rooted_view.root (View.walk_of_reach hreach) hl
    have hreach₀ := View.reach_of_reach hreach hwalk
    have hcourse : (t'.view.courseTo a.path).passed = (t.view.courseTo a.path).passed :=
      congrArg Course.passed (h.course_eq hclear)
    have hmem := View.mem_passed_of_reach t'.rooted_view hreach hl
    rw [hcourse] at hmem
    exact isWritten_eq_true_iff.2 ⟨l, hreach₀, (h.eq_iff (hclear l hmem) (by simp)).1 hl⟩
  | false =>
    -- If the file were there before, it would be there now; and an error would be one now.
    cases hw₀ : a.isWritten t with
    | ok w₀ =>
      cases w₀ with
      | false => rfl
      | true => simp [isWritten_of_keeps h hclear hw₀] at hw
    | error e =>
      rw [isWritten_eq] at hw hw₀
      split at hw₀
      · cases hw₀
      · cases hw₀
      · next cause hcause hreach =>
        rw [View.reach_error_of_keeps h hclear hcause hreach] at hw
        cases cause <;> simp_all

/-! ## Where artifacts are written to -/

/-- The way to a draft is part of the course of its artifact. -/
theorem exists_courseTo_eq (v : View) (a : Artifact) : ∃ rest, v.courseTo a.path =
    (v.wayTo a.draftPath).andThen fun here links => v.course links here rest := by
  obtain ⟨way, rest, hsteps, hfilter⟩ := a.exists_steps_draftPath
  refine ⟨rest, ?_⟩
  have hway : v.wayTo a.draftPath = v.course linkLimit [] (way.filter (· ≠ .stay)) := by
    rw [View.wayTo, hsteps, List.dropLast_concat]
    exact (View.course_filter_stay [] way).symm
  rw [hway, ← View.course_append, ← hfilter]
  exact (View.course_filter_stay [] _).symm

/-- The way to the draft goes over nothing that the path of the artifact does not. -/
theorem passed_wayTo_draftPath_subset (v : View) (a : Artifact) :
    (v.wayTo a.draftPath).passed ⊆ (v.courseTo a.path).passed := by
  obtain ⟨rest, hcourse⟩ := a.exists_courseTo_eq v
  rw [hcourse, Course.andThen]
  split
  · exact List.Subset.refl _
  · exact List.subset_append_left _ _

/-- An artifact is written to the same locations as before, if the links on the course of its path are
the same. -/
theorem places_of_links (h : ∀ l ∈ (v.courseTo a.path).passed, ∀ target,
    v' l = some (.link target) ↔ v l = some (.link target)) :
    v'.place? a.path = v.place? a.path ∧ v'.place? a.draftPath = v.place? a.draftPath ∧
      v'.wayTo a.path = v.wayTo a.path := by
  have hway : v'.wayTo a.path = v.wayTo a.path :=
    View.course_congr fun l hl => h l (View.passed_wayTo_subset v a.path hl)
  have hdraft : v'.wayTo a.draftPath = v.wayTo a.draftPath :=
    View.course_congr fun l hl => h l (a.passed_wayTo_draftPath_subset v hl)
  exact ⟨by rw [View.place?, View.place?, hway], by rw [View.place?, View.place?, hdraft], hway⟩

end Artifact

/-! ## Commits -/

namespace Staging

theorem nodup_components (s : Staging) : (s.artifacts.map (·.path.components)).Nodup := by
  rw [List.Nodup, List.pairwise_map]
  exact s.distinct.imp fun h => by simpa [Path.same] using h

theorem nodup_artifacts (s : Staging) : s.artifacts.Nodup := List.Nodup.of_map _ s.nodup_components

end Staging

/-- Writing one artifact does not lead another one elsewhere: no path ends where another artifact or
its draft is written, or follows a link there or at its own place. And no link stands where a draft is
put. -/
structure Independent (v : View) (as : List Artifact) : Prop where
  own : ∀ a ∈ as, ∀ l ∈ (v.wayTo a.path).passed, v.place? a.path = some l →
    ∀ target, v l ≠ some (.link target)
  others : ∀ a ∈ as, ∀ b ∈ as, b ≠ a → ∀ l ∈ b.touched v, l ∈ (v.courseTo a.path).passed →
    (∀ target, v l ≠ some (.link target)) ∧ (v.courseTo a.path).passed.getLast? ≠ some l
  free : ∀ a ∈ as, a.DraftsFreely v

/-- The paths of artifacts lead to different files, where links are followed and what is missing is
taken for a directory: besides what makes them independent, no path goes over the place of another
artifact or of its draft. -/
structure Apart (v : View) (as : List Artifact) : Prop where
  own : ∀ a ∈ as, ∀ l ∈ (v.wayTo a.path).passed, v.place? a.path = some l →
    ∀ target, v l ≠ some (.link target)
  others : ∀ a ∈ as, ∀ b ∈ as, b ≠ a → ∀ l ∈ b.touched v, l ∉ (v.courseTo a.path).passed
  free : ∀ a ∈ as, a.DraftsFreely v

theorem Independent.subset {v : View} {as bs : List Artifact} (h : Independent v as) (hsub : bs ⊆ as) :
    Independent v bs where
  own := fun a ha => h.own a (hsub ha)
  others := fun a ha b hb => h.others a (hsub ha) b (hsub hb)
  free := fun a ha => h.free a (hsub ha)

theorem Apart.independent {v : View} {as : List Artifact} (h : Apart v as) : Independent v as where
  own := h.own
  others := fun a ha b hb hne l hl hmem => absurd hmem (h.others a ha b hb hne l hl)
  free := h.free

/-- Whether the paths of artifacts lead to different files, as a computation. -/
def areApart (v : View) (as : List Artifact) : Bool :=
  as.all fun a =>
    ((v.place? a.path).all fun l =>
      !(v l matches some (.link _)) || !(v.wayTo a.path).passed.contains l) &&
    (as.all fun b => b = a || [v.place? b.path, v.place? b.draftPath].all (·.all fun l =>
      v l = some .directory || !(v.courseTo a.path).passed.contains l)) &&
    (v.place? a.draftPath).all fun l => !(v l matches some (.link _))

/-- The check decides whether files are apart. -/
theorem areApart_iff {v : View} {as : List Artifact} : areApart v as = true ↔ Apart v as := by
  have hlink (l : Location) :
      ¬(v l matches some (.link _)) = true ↔ ∀ target, v l ≠ some (.link target) := by
    split <;> simp_all
  simp only [areApart, List.all_eq_true, Bool.and_eq_true, Option.all_eq_true, Bool.not_eq_true',
    List.contains_eq_mem, Bool.or_eq_true, decide_eq_true_eq, List.forall_mem_cons, List.not_mem_nil,
    false_imp_iff, implies_true, and_true, ← Bool.not_eq_true, hlink]
  constructor
  · intro h
    constructor
    case own => exact fun a ha l hl hplace => ((h a ha).1.1 l hplace).resolve_right (not_not_intro hl)
    case others =>
      rintro a ha b hb hne l ⟨hl | hl, hdirectory⟩
      · exact ((((h a ha).1.2 b hb).resolve_left hne).1 l hl).resolve_left hdirectory
      · exact ((((h a ha).1.2 b hb).resolve_left hne).2 l hl).resolve_left hdirectory
    case free => exact fun a ha => (h a ha).2
  · intro h a ha
    refine ⟨⟨fun l hplace => ?_, fun b hb => ?_⟩, h.free a ha⟩
    · by_cases hl : l ∈ (v.wayTo a.path).passed
      · exact .inl (h.own a ha l hl hplace)
      · exact .inr hl
    · by_cases hne : b = a
      · exact .inl hne
      · have hother (l : Location) (hl : v.place? b.path = some l ∨ v.place? b.draftPath = some l) :
            v l = some .directory ∨ l ∉ (v.courseTo a.path).passed :=
          or_iff_not_imp_left.2 fun hdirectory => h.others a ha b hb hne l ⟨hl, hdirectory⟩
        exact .inr ⟨fun l hl => hother l (.inl hl), fun l hl => hother l (.inr hl)⟩

instance (v : View) (as : List Artifact) : Decidable (Apart v as) := decidable_of_iff _ areApart_iff

/-- Where artifacts are written to: their places and those of their drafts. -/
def touchedBy (v : View) (as : List Artifact) : Set Location := {l | ∃ a ∈ as, l ∈ a.touched v}

theorem touchedBy_mono (v : View) {as bs : List Artifact} (h : as ⊆ bs) :
    touchedBy v as ⊆ touchedBy v bs :=
  fun _ ⟨a, ha, hl⟩ => ⟨a, h ha, hl⟩

/-- The course of an artifact is clear of where others are written to. -/
theorem Apart.notMem_touchedBy {v : View} {as done : List Artifact} {a : Artifact} (h : Apart v as)
    (hdone : done ⊆ as) (ha : a ∈ as) (hnew : a ∉ done) :
    ∀ l ∈ (v.courseTo a.path).passed, l ∉ touchedBy v done := by
  rintro l hl ⟨b, hb, htouched⟩
  exact h.others a ha b (hdone hb) (ne_of_mem_of_not_mem hb hnew) l htouched hl

/-- What a tree holds after artifacts were committed, compared with the view before. -/
structure Realized (v : View) (done : List Artifact) (t : Tree) : Prop where
  /-- Besides the places of the artifacts and of their drafts, only directories were made. -/
  keeps : Keeps (touchedBy v done) v t.view
  written : ∀ a ∈ done, a.isWritten t = .ok true
  /-- Their paths do not go over locations that they did not go over before. -/
  course : ∀ a ∈ done, (t.view.courseTo a.path).passed ⊆ (v.courseTo a.path).passed
  /-- They end at their places, or where they ended before. -/
  ends : ∀ a ∈ done, ∀ l, (t.view.courseTo a.path).passed.getLast? = some l →
    v.place? a.path = some l ∨ (v.courseTo a.path).passed.getLast? = some l
  /-- No draft is left where no file was. -/
  drafted : ∀ a ∈ done, ∀ l, v.place? a.draftPath = some l → ∀ content,
    t.view l = some (.file content) → v l = some (.file content)
  /-- No links were made. -/
  links : ∀ l target, t.view l = some (.link target) → v l = some (.link target)

namespace Independent

variable {v : View} {as : List Artifact} {a b : Artifact} {l : Location}

/-- The place of an artifact is not written to by another one. -/
theorem place_notMem (h : Independent v as) (ha : a ∈ as) (hb : b ∈ as) (hne : b ≠ a)
    (hplace : v.place? a.path = some l) : l ∉ b.touched v := by
  intro htouched
  obtain ⟨hmem, hend⟩ := View.mem_passed_of_place? hplace
  obtain ⟨hlink, hlast⟩ := h.others a ha b hb hne l htouched hmem
  exact hlast (hend hlink)

end Independent

namespace Realized

variable {v : View} {as done rest : List Artifact} {a : Artifact} {t t' : Tree}

theorem nil (t : Tree) : Realized t.view [] t where
  keeps := Keeps.refl _ _
  written := by simp
  course := by simp
  ends := by simp
  drafted := by simp
  links := fun _ _ => id

/-- Artifacts that were committed did not touch a link on the course of another one. -/
theorem links_iff (h : Realized v done t) (hind : Independent v as) (hdone : done ⊆ as) (ha : a ∈ as)
    (hnew : a ∉ done) : ∀ l ∈ (v.courseTo a.path).passed, ∀ target,
      t.view l = some (.link target) ↔ v l = some (.link target) := by
  intro l hl target
  by_cases htouched : l ∈ touchedBy v done
  · obtain ⟨b, hb, htouched⟩ := htouched
    have hne := ne_of_mem_of_not_mem hb hnew
    have hlink := (hind.others a ha b (hdone hb) hne l htouched hl).1 target
    exact ⟨h.links l target, fun hlink' => absurd hlink' hlink⟩
  · exact h.keeps.eq_iff htouched (by simp)

/-- The next artifact is still reached by the course it had before the commit. -/
theorem course_eq (h : Realized v done t) (hind : Independent v as) (hdone : done ⊆ as) (ha : a ∈ as)
    (hnew : a ∉ done) : t.view.courseTo a.path = v.courseTo a.path :=
  View.course_congr (h.links_iff hind hdone ha hnew)

/-- The places of the next artifact and of its draft are the ones before the commit. -/
theorem places_eq (h : Realized v done t) (hind : Independent v as) (hdone : done ⊆ as) (ha : a ∈ as)
    (hnew : a ∉ done) : t.view.place? a.path = v.place? a.path ∧
      t.view.place? a.draftPath = v.place? a.draftPath ∧ t.view.wayTo a.path = v.wayTo a.path :=
  Artifact.places_of_links (h.links_iff hind hdone ha hnew)

/-- Directories stay. -/
theorem directory_of_directory (h : Realized v done t) {l : Location} (hl : v l = some .directory) :
    t.view l = some .directory := by
  refine (h.keeps.ne_none ?_ (by simp [hl])).trans hl
  rintro ⟨b, -, -, hdirectory⟩
  exact hdirectory hl

/-- The next artifact is written to no other locations than it would have been written to before. -/
theorem touched_subset (h : Realized v done t) (hind : Independent v as) (hdone : done ⊆ as)
    (ha : a ∈ as) (hnew : a ∉ done) : a.touched t.view ⊆ a.touched v := by
  obtain ⟨hplace, hdraft, -⟩ := h.places_eq hind hdone ha hnew
  rintro l ⟨hl, hdirectory⟩
  rw [hplace, hdraft] at hl
  exact ⟨hl, fun hdir => hdirectory (h.directory_of_directory hdir)⟩

/-- And its draft is put nowhere else. -/
theorem drafted_subset (h : Realized v done t) (hind : Independent v as) (hdone : done ⊆ as)
    (ha : a ∈ as) (hnew : a ∉ done) : a.drafted t.view ⊆ a.drafted v := by
  rintro l ⟨hl, hdirectory⟩
  rw [(h.places_eq hind hdone ha hnew).2.1] at hl
  exact ⟨hl, fun hdir => hdirectory (h.directory_of_directory hdir)⟩

/-- The paths of what was committed do not go over locations that the next artifact is written to. -/
theorem clear_committed (h : Realized v done t) (hind : Independent v as) (hdone : done ⊆ as)
    (ha : a ∈ as) (hnew : a ∉ done) :
    ∀ b ∈ done, ∀ l ∈ (t.view.courseTo b.path).passed, l ∉ a.touched t.view := by
  intro b hb l hl htouched
  have hbefore := h.touched_subset hind hdone ha hnew htouched
  have hne := (ne_of_mem_of_not_mem hb hnew).symm
  have hother := hind.others b (hdone hb) a ha hne l hbefore (h.course b hb hl)
  obtain ⟨file, hreach, hfile⟩ := Artifact.isWritten_eq_true_iff.1 (h.written b hb)
  -- a location on the path of a committed file is a directory, a link or the file itself
  rcases View.sight_of_mem_passed t.rooted_view hreach hfile hl with
    hdirectory | ⟨target, hlink⟩ | hend
  · exact htouched.2 hdirectory
  · exact hother.1 target (h.links l target hlink)
  · rcases h.ends b hb l hend with hplace | hend
    · exact hind.place_notMem (hdone hb) ha hne hplace hbefore
    · exact hother.2 hend

/-- The next artifact is written already. -/
theorem snoc_written (h : Realized v done t) (hind : Independent v as) (hdone : done ⊆ as) (ha : a ∈ as)
    (hnew : a ∉ done) (hw : a.isWritten t = .ok true) : Realized v (done ++ [a]) t := by
  have hcourse := h.course_eq hind hdone ha hnew
  constructor
  case keeps => exact h.keeps.mono (touchedBy_mono v (List.subset_append_left _ _))
  case written => simpa [or_imp, forall_and] using ⟨h.written, hw⟩
  case course => simpa [or_imp, forall_and, hcourse] using h.course
  case ends =>
    intro b hb l hl
    rcases List.mem_append.1 hb with hb | hb
    · exact h.ends b hb l hl
    · obtain rfl := List.mem_singleton.1 hb
      exact .inr (hcourse ▸ hl)
  case drafted =>
    intro b hb l hl content hfile
    rcases List.mem_append.1 hb with hb | hb
    · exact h.drafted b hb l hl content hfile
    · obtain rfl := List.mem_singleton.1 hb
      by_cases htouched : l ∈ touchedBy v done
      · -- The draft of another artifact can be put there, but no artifact.
        obtain ⟨c, hc, hplace | hdraft, hdirectory⟩ := htouched
        · have hne := (ne_of_mem_of_not_mem hc hnew).symm
          exact absurd ⟨.inr hl, hdirectory⟩ (hind.place_notMem (hdone hc) ha hne hplace)
        · exact h.drafted c hc l hdraft content hfile
      · exact (h.keeps.eq_iff htouched (by simp)).1 hfile
  case links => exact h.links

/-- The next artifact was written. -/
theorem snoc_replaced (h : Realized v done t) (hind : Independent v as) (hdone : done ⊆ as)
    (ha : a ∈ as) (hnew : a ∉ done) (hr : a.Replaced t.view t'.view) :
    Realized v (done ++ [a]) t' := by
  obtain ⟨hplace, hdraft, -⟩ := h.places_eq hind hdone ha hnew
  obtain ⟨place, hp, hreach, hcontent⟩ := hr.reached
  have hcommitted := h.clear_committed hind hdone ha hnew
  have hcourse (b : Artifact) (hb : b ∈ done) : t'.view.courseTo b.path = t.view.courseTo b.path :=
    hr.keeps.course_eq (hcommitted b hb)
  constructor
  case keeps =>
    have hbefore := h.keeps.mono (touchedBy_mono v (List.subset_append_left done [a]))
    exact hbefore.trans (hr.keeps.mono fun l hl =>
      ⟨a, by simp, h.touched_subset hind hdone ha hnew hl⟩)
  case written =>
    intro b hb
    rcases List.mem_append.1 hb with hb | hb
    · exact Artifact.isWritten_of_keeps hr.keeps (hcommitted b hb) (h.written b hb)
    · obtain rfl := List.mem_singleton.1 hb
      exact Artifact.isWritten_eq_true_iff.2 ⟨place, hreach, hcontent⟩
  case course =>
    intro b hb
    rcases List.mem_append.1 hb with hb | hb
    · rw [hcourse b hb]
      exact h.course b hb
    · obtain rfl := List.mem_singleton.1 hb
      rw [← h.course_eq hind hdone ha hnew]
      exact hr.course
  -- the file of an earlier artifact is where it was; the new one is at its place
  case ends =>
    intro b hb l hl
    rcases List.mem_append.1 hb with hb | hb
    · rw [hcourse b hb] at hl
      exact h.ends b hb l hl
    · obtain rfl := List.mem_singleton.1 hb
      have hend := View.getLast?_passed t'.rooted_view t'.rooted_view.root
        (View.walk_of_reach hreach) hcontent
      obtain rfl := Option.some.inj (hend.symm.trans hl)
      exact .inl (hplace ▸ hp)
  -- a file at the place of a draft was there before, since the draft of this artifact is gone
  case drafted =>
    intro b hb l hl content hfile
    have hgone (hl : v.place? a.draftPath = some l) : t'.view l = none :=
      hr.drafted l (hdraft.trans hl)
    rcases List.mem_append.1 hb with hb | hb
    · by_cases htouched : l ∈ a.touched t.view
      · rcases htouched with ⟨hl' | hl', hdirectory⟩
        · rw [hplace] at hl'
          have hne := ne_of_mem_of_not_mem hb hnew
          exact absurd ⟨.inr hl, fun hdir => hdirectory (h.directory_of_directory hdir)⟩
            (hind.place_notMem ha (hdone hb) hne hl')
        · simp [hgone (hdraft.symm.trans hl')] at hfile
      · exact h.drafted b hb l hl content ((hr.keeps.eq_iff htouched (by simp)).1 hfile)
    · obtain rfl := List.mem_singleton.1 hb
      simp [hgone hl] at hfile
  case links => exact fun l target hl => h.links l target (hr.links l target hl)

/-- No link stands where the next draft is put. -/
theorem draftsFreely (h : Realized v done t) (hind : Independent v as) (hdone : done ⊆ as) (ha : a ∈ as)
    (hnew : a ∉ done) : a.DraftsFreely t.view := by
  intro l hl target hlink
  rw [(h.places_eq hind hdone ha hnew).2.1] at hl
  exact hind.free a ha l hl target (h.links l target hlink)

/-- One step of a commit. -/
theorem commit (h : Realized v done t) (hind : Independent v as) (hdone : done ⊆ as) (ha : a ∈ as)
    (hnew : a ∉ done) {w : Bool} (hc : a.commit t = (t', .ok w)) : Realized v (done ++ [a]) t' := by
  unfold Artifact.commit at hc
  split at hc
  · cases hc
  · next hw =>
    obtain ⟨rfl, -⟩ := Prod.mk.inj hc
    exact h.snoc_written hind hdone ha hnew hw
  · split at hc
    · cases hc
    · next hwrite =>
      obtain ⟨rfl, -⟩ := Prod.mk.inj hc
      obtain ⟨hplace, -, hway⟩ := h.places_eq hind hdone ha hnew
      have hown : ∀ l ∈ (t.view.wayTo a.path).passed, t.view.place? a.path = some l →
          ∀ target, t.view l ≠ some (.link target) := by
        rw [hplace, hway]
        exact fun l hl hp target hlink => hind.own a ha l hl hp target (h.links l target hlink)
      exact h.snoc_replaced hind hdone ha hnew
        (Artifact.replaced_of_write (h.draftsFreely hind hdone ha hnew) hown hwrite)

/-- A commit realizes all its artifacts, one after the other. -/
theorem commitAll (h : Realized v done t) (hind : Independent v (done ++ rest))
    (hnodup : (done ++ rest).Nodup) {c c' : Committed}
    (hc : commitAll rest t c = (t', .ok c')) : Realized v (done ++ rest) t' := by
  -- The invariant `Realized` over the files committed so far is carried through the rest.
  induction rest generalizing done t c with
  | nil =>
    obtain ⟨rfl, -⟩ := Prod.mk.inj hc
    simpa using h
  | cons a rest ih =>
    unfold Scaffold.commitAll at hc
    split at hc
    · cases hc
    · next t₁ w hstep =>
      have hnew : a ∉ done := fun hmem =>
        (List.nodup_append.1 hnodup).2.2 a hmem a List.mem_cons_self rfl
      have hnext := h.commit hind (List.subset_append_left _ _) (by simp) hnew hstep
      rw [List.append_cons] at hind hnodup ⊢
      exact ih hnext hind hnodup hc

end Realized

end Scaffold
