import Scaffold.Proofs.Disk.Course
import Scaffold.Proofs.Disk.Stops
import Scaffold.Proofs.Schema.Actions

/-!
# Writing one artifact

What the file operations change, by sight: directories are made where nothing stood
(`Tree.keeps_makeDirectories`), and a file is written, moved or removed at one location. Put together
for an artifact: writing it makes directories and changes two locations, its place and that of its
draft, if no link stands where the draft is put and no link at the place is on the way to it
(`Artifact.replaced_of_write`); where writing fails, only the draft may be left
(`Artifact.keeps_of_write_error`).
-/

namespace Scaffold

open Text
open Scaffold.Tree (Step Aim steps linkLimit)

namespace View

variable {v v' : View} {aim aim' : Aim} {links : Nat} {here : Location} {way : List Step}

/-- A walk ends at a directory, or at a name in one. -/
theorem walk_ends (hv : v.Rooted) (hhere : v here = some .directory) {l : Location}
    (h : v.walk aim links here way = .ok l) :
    v l = some .directory ∨ ∃ above n, l = above ++ [n] ∧ v above = some .directory := by
  fun_induction walk v aim links here way with
  | case1 => exact .inl (Except.ok.inj h ▸ hhere)
  | case2 _ _ _ ih => exact ih hhere h
  | case3 _ _ _ ih => exact ih hhere h
  | case4 _ _ _ ih => exact ih (hv.dropLast hhere) h
  | case7 _ _ _ _ _ _ hn ih => exact ih hn h
  | case8 | case11 | case13 => exact .inr ⟨_, _, (Except.ok.inj h).symm, hhere⟩
  | case10 _ _ _ _ _ target _ _ _ ih => exact ih (hv.at_linkStart hhere target) h
  | case5 | case6 | case9 | case12 | case14 => cases h

/-- A path that leads somewhere is walked to its end. -/
theorem walk_of_reach {p : Path} {l : Location} (h : v.reach aim p = .ok l) :
    v.walk aim linkLimit [] (steps p.text) = .ok l := by
  unfold reach at h
  split at h
  · cases h
  · exact h

/-- Whether the system looks at a path does not depend on what it is taken for. -/
theorem reach_of_reach {p : Path} {l l' : Location} (h : v.reach aim p = .ok l)
    (hwalk : v'.walk aim' linkLimit [] (steps p.text) = .ok l') : v'.reach aim' p = .ok l' := by
  unfold reach at h ⊢
  split at h
  · cases h
  · exact hwalk

/-- What a path leads to lies in a directory, unless it is one. -/
theorem reach_ends (hv : v.Rooted) {p : Path} {l : Location} (h : v.reach aim p = .ok l)
    (hl : v l ≠ some .directory) : ∃ above n, l = above ++ [n] ∧ v above = some .directory :=
  (walk_ends hv hv.root (walk_of_reach h)).resolve_left hl

/-- The place of a path that ends with a name. -/
theorem place?_eq {p : Path} {n : Text} {last : Location} (hsteps : steps p.text = way ++ [.name n])
    (hlast : (v.course linkLimit [] way).goal.map (·.1) = some last) :
    v.place? p = some (last ++ [n]) := by
  obtain ⟨⟨last, links⟩, hgoal, rfl⟩ := Option.map_eq_some_iff.1 hlast
  simp [place?, wayTo, hsteps, hgoal]

end View

namespace Tree

open View (Keeps)

variable {t t' : Tree} {p : Path}

/-! ## What file operations change -/

/-- Something without entries, put where a path leads, changes one location. -/
theorem view_place_of_reach {aim : Aim} {l : Location} {e : Entry}
    (h : t.view.reach aim p = .ok l) (hl : t.view l ≠ some .directory) (he : e.entries = []) :
    (t.place l e).view = Function.update t.view l (some e.sight) := by
  obtain ⟨above, n, rfl, habove⟩ := View.reach_ends t.rooted_view h hl
  exact view_place habove hl he

theorem view_eq_none_of_found {aim : Aim} {s : Spot} (h : t.reach aim p = .ok s)
    (hs : s.found = none) : t.view s.location = none := by
  rw [view_eq, ← found_eq_of_reach h, hs]
  rfl

/-- No directory is where none was found. -/
theorem view_ne_directory_of_found {aim : Aim} {s : Spot} (h : t.reach aim p = .ok s)
    (hs : ∀ entries, s.found ≠ some (.directory entries)) :
    t.view s.location ≠ some .directory := by
  rw [view_eq, ← found_eq_of_reach h]
  cases hfound : s.found with
  | none => simp
  | some e =>
    cases e with
    | directory entries => exact absurd hfound (hs entries)
    | file | link => simp [Entry.sight]

/-- Making a directory adds it where nothing was. -/
theorem view_makeDirectory (h : t.makeDirectory p = .ok t') :
    ∃ l, t.view l = none ∧ t'.view = Function.update t.view l (some .directory) := by
  unfold makeDirectory reachNew at h
  obtain ⟨l, hnew, h⟩ := bind_eq_ok_iff.1 h
  obtain rfl := Except.ok.inj h
  split at hnew
  · cases hnew
  · obtain ⟨s, hreach, hnew⟩ := bind_eq_ok_iff.1 hnew
    split at hnew
    · cases hnew
    · next hfound =>
      obtain rfl := Except.ok.inj hnew
      have hnone := view_eq_none_of_found hreach hfound
      exact ⟨s.location, hnone,
        view_place_of_reach (reach_eq_ok_iff.1 hreach).1 (by simp [hnone]) rfl⟩

/-- Making a directory touches nothing that exists. -/
theorem keeps_makeDirectory (h : t.makeDirectory p = .ok t') : Keeps ∅ t.view t'.view := by
  obtain ⟨l, hnone, hview⟩ := view_makeDirectory h
  intro m _
  rw [hview]
  by_cases hm : m = l
  · exact .inr ⟨hm ▸ hnone, by rw [hm, Function.update_self]⟩
  · exact .inl (Function.update_of_ne hm _ _)

/-- Making the directories of a path touches nothing that exists. -/
theorem keeps_makeDirectoriesFrom (fuel : Nat) (t : Tree) (p : Path) :
    Keeps ∅ t.view (makeDirectoriesFrom fuel t p).1.view := by
  -- each round tries the path, then its parents, then the path again
  induction fuel generalizing t p with
  | zero => exact Keeps.refl _ _
  | succ fuel ih =>
    unfold makeDirectoriesFrom
    split
    · exact Keeps.refl _ _
    · dsimp only
      split
      · next hmade => exact keeps_makeDirectory hmade
      · split
        · exact Keeps.refl _ _
        · next above _ =>
          have habove := ih t above
          split
          · next heq => rwa [heq] at habove
          · next heq =>
            rw [heq] at habove
            split
            · next hmade => exact habove.trans (keeps_makeDirectory hmade)
            · exact habove
      · exact Keeps.refl _ _

/-- Making directories changes nothing else, whether it succeeds or not. -/
theorem keeps_makeDirectories (t : Tree) (p : Path) : Keeps ∅ t.view (t.makeDirectories p).1.view :=
  keeps_makeDirectoriesFrom _ t p

/-- Writing a file changes the one location that the path leads to. -/
theorem view_write {content : Content} (h : t.write p content = .ok t') :
    ∃ l, t.view.reach .newFile p = .ok l ∧ t.view l ≠ some .directory ∧
      t'.view = Function.update t.view l (some (.file content)) := by
  unfold write at h
  obtain ⟨s, hreach, h⟩ := bind_eq_ok_iff.1 h
  split at h
  · cases h
  · next hfound =>
    obtain rfl := Except.ok.inj h
    have hl := view_ne_directory_of_found hreach fun entries hs => hfound entries hs
    have hview := (reach_eq_ok_iff.1 hreach).1
    exact ⟨s.location, hview, hl, view_place_of_reach hview hl rfl⟩

/-- Removing a file empties the location of its entry. -/
theorem view_removeFile (h : t.removeFile p = .ok t') :
    ∃ l, t.view.reach .entry p = .ok l ∧ t'.view = Function.update t.view l none := by
  unfold removeFile at h
  obtain ⟨s, hreach, h⟩ := bind_eq_ok_iff.1 h
  split at h
  · cases h
  · cases h
  · next hleaf hfound =>
    obtain rfl := Except.ok.inj h
    refine ⟨s.location, (reach_eq_ok_iff.1 hreach).1, view_remove ?_⟩
    refine view_ne_directory_of_found hreach fun entries hs => ?_
    exact hleaf entries (Option.some.inj (hfound.symm.trans hs))

/-- There are no slashes to drop at the end of a path that does not end with one. -/
theorem dropEndWhile_slash {s : Text} (h : s.getLast? ≠ some '/') :
    dropEndWhile (· = '/') s = s := by
  rcases s.eq_nil_or_concat with rfl | ⟨front, c, rfl⟩
  · rfl
  · have hc : c ≠ '/' := by simpa using h
    simp [dropEndWhile, hc]

/-- The last segment of a path that does not end with a slash. -/
theorem getLast?_of_lastSegment (hslash : p.text.getLast? ≠ some '/') (hne : lastSegment p ≠ []) :
    (splitOn '/' p.text).getLast? = some (lastSegment p) := by
  unfold lastSegment at hne ⊢
  rw [dropEndWhile_slash hslash] at hne ⊢
  cases hsegment : (splitOn '/' p.text).getLast? with
  | none => simp [hsegment] at hne
  | some n => rfl

/-- A move that succeeds found the source and put it where the target leads, which ends with the name
of an entry. -/
theorem exists_of_moveFile {source target : Path} (h : t.moveFile source target = .ok t') :
    ∃ s e place, t.reach .entry source = .ok s ∧ s.found = some e ∧
      IsEntryName (lastSegment target) ∧
      (splitOn '/' target.text).getLast? = some (lastSegment target) ∧
      t.reach .entry target = .ok place ∧ (∀ entries, place.found ≠ some (.directory entries)) ∧
      t' = (t.remove s.location).place place.location e := by
  unfold moveFile at h
  obtain ⟨s, hsource, h⟩ := bind_eq_ok_iff.1 h
  obtain ⟨-, -, h⟩ := bind_eq_ok_iff.1 h
  dsimp only at h
  split at h
  · cases h
  next hname =>
  split at h
  · cases h
  next e hfound =>
  obtain ⟨place, hplace, h⟩ := bind_eq_ok_iff.1 h
  split at h
  · cases h
  next hslash =>
  split at h
  · cases h
  next hdirectory =>
  rw [dropEndWhile_slash hslash] at hplace
  simp only [Bool.or_eq_true, decide_eq_true_eq, not_or] at hname
  obtain ⟨⟨hempty, hdot⟩, hup⟩ := hname
  have hlast := getLast?_of_lastSegment hslash hempty
  have hentry : IsEntryName (lastSegment target) :=
    ⟨by simp [Path.isIdle, hempty, hdot], hup,
      notMem_of_mem_splitOn (List.mem_of_getLast? hlast)⟩
  exact ⟨s, e, place, hsource, hfound, hentry, hlast, hplace,
    fun entries hs => hdirectory entries hs, (Except.ok.inj h).symm⟩

/-- What has no entries, taken away from `l` and put where a path leads, changes two locations. -/
theorem view_place_remove {l place : Location} {e : Entry} (hl : t.view l = some e.sight)
    (he : e.sight ≠ .directory) (hreach : t.view.reach .entry p = .ok place)
    (hfree : t.view place ≠ some .directory) :
    ((t.remove l).place place e).view =
      Function.update (Function.update t.view l none) place (some e.sight) := by
  obtain ⟨above, n, rfl, habove⟩ := View.reach_ends t.rooted_view hreach hfree
  have hremoved : (t.remove l).view = Function.update t.view l none :=
    view_remove (by simpa [hl] using he)
  -- the directory of the place is not what was taken away
  have hne : above ≠ l := fun heq => by simp [heq, hl, he] at habove
  have hfree' : (t.remove l).view (above ++ [n]) ≠ some .directory := by
    rw [hremoved]
    by_cases heq : above ++ [n] = l
    · simp [heq]
    · rwa [Function.update_of_ne heq]
  rw [view_place ?_ hfree' (Entry.entries_eq_nil he), hremoved]
  rwa [hremoved, Function.update_of_ne hne]

/-- Moving a file puts it under the name that the target ends with. -/
theorem view_moveFile {source target : Path} (h : t.moveFile source target = .ok t') :
    ∃ l, t.view.reach .entry source = .ok l ∧ ∀ content, t.view l = some (.file content) →
      ∃ n place, IsEntryName n ∧ (splitOn '/' target.text).getLast? = some n ∧
        t.view.reach .entry target = .ok place ∧ t.view place ≠ some .directory ∧
        t'.view = Function.update (Function.update t.view l none) place (some (.file content)) := by
  obtain ⟨s, e, place, hsource, he, hname, hlast, hplace, hfree, rfl⟩ := exists_of_moveFile h
  obtain ⟨hs, hfound⟩ := reach_eq_ok_iff.1 hsource
  refine ⟨s.location, hs, fun content hfile => ?_⟩
  obtain ⟨hreach, -⟩ := reach_eq_ok_iff.1 hplace
  have hfree := view_ne_directory_of_found hplace hfree
  have hsight : e.sight = .file content := by
    rw [view_eq, ← hfound, he] at hfile
    exact Option.some.inj hfile
  have hview := view_place_remove (hsight ▸ hfile) (by simp [hsight]) hreach hfree
  exact ⟨lastSegment target, place.location, hname, hlast, hreach, hfree, hsight ▸ hview⟩

end Tree

namespace Artifact

open View (Keeps)

variable {a : Artifact} {v : View} {t t₁ t₂ t' : Tree}

/-! ## Drafts -/

/-- Where the draft of an artifact is put, if no directory stands there. -/
def drafted (v : View) (a : Artifact) : Set Location :=
  {l | v.place? a.draftPath = some l ∧ v l ≠ some .directory}

/-- Where an artifact is written to: its place and that of its draft, if no directories stand there. -/
def touched (v : View) (a : Artifact) : Set Location :=
  {l | (v.place? a.path = some l ∨ v.place? a.draftPath = some l) ∧ v l ≠ some .directory}

theorem drafted_subset (v : View) (a : Artifact) : a.drafted v ⊆ a.touched v :=
  fun _ ⟨hplace, hdirectory⟩ => ⟨.inr hplace, hdirectory⟩

/-- No link stands where the draft of an artifact is put. -/
def DraftsFreely (v : View) (a : Artifact) : Prop :=
  ∀ l, v.place? a.draftPath = some l → ∀ target, v l ≠ some (.link target)

/-- A draft is put at its place, after directories were made; no course changes by it. -/
theorem view_draft {content : Content} (hfree : a.DraftsFreely t.view)
    (hmade : Keeps ∅ t.view t₁.view) (h : t₁.write a.draftPath content = .ok t₂) :
    ∃ l, l ∈ a.drafted t.view ∧
      t₂.view = Function.update t₁.view l (some (.file content)) ∧
      (∀ m target, t₂.view m = some (.link target) ↔ t.view m = some (.link target)) ∧
      ∀ l', t₂.view.reach .entry a.draftPath = .ok l' → l' = l := by
  obtain ⟨way, _, hsteps, _⟩ := a.exists_steps_draftPath
  obtain ⟨l, hreach, hdirectory, hview⟩ := Tree.view_write h
  have hlinks (m : Location) (target : Text) :
      t₁.view m = some (.link target) ↔ t.view m = some (.link target) :=
    hmade.eq_iff (Set.notMem_empty m) (by simp)
  have hwalk := View.walk_of_reach hreach
  rw [hsteps] at hwalk
  obtain ⟨-, last, hlast, hl⟩ := View.of_walk_append_name hwalk
  rw [View.course_congr fun m _ => hlinks m] at hlast
  have hplace := View.place?_eq hsteps hlast
  -- no link stands at the place, so the draft is not written through one
  have hnolink : ∀ target, t₁.view (last ++ [a.draftName]) ≠ some (.link target) :=
    fun target hlink => hfree _ hplace target ((hlinks _ target).1 hlink)
  obtain rfl : l = last ++ [a.draftName] :=
    hl.resolve_right fun ⟨_, target, hlink⟩ => hnolink target hlink
  have hlinks₂ (m : Location) (target : Text) :
      t₂.view m = some (.link target) ↔ t.view m = some (.link target) := by
    rw [hview, ← hlinks]
    by_cases hm : m = last ++ [a.draftName]
    · rw [hm, Function.update_self]
      simp [hnolink]
    · rw [Function.update_of_ne hm]
  have hfresh : t.view (last ++ [a.draftName]) ≠ some .directory := fun hdir =>
    hdirectory ((hmade.ne_none (Set.notMem_empty _) (by simp [hdir])).trans hdir)
  refine ⟨_, ⟨hplace, hfresh⟩, hview, hlinks₂, fun l' hreach' => ?_⟩
  have hwalk' := View.walk_of_reach hreach'
  rw [hsteps] at hwalk'
  obtain ⟨-, last', hlast', hl'⟩ := View.of_walk_append_name hwalk'
  rw [View.course_congr fun m _ => hlinks₂ m, hlast] at hlast'
  obtain rfl := Option.some.inj hlast'
  exact hl'.resolve_right fun ⟨hne, _⟩ => hne rfl

/-- A draft touches one location. -/
theorem keeps_draft {content : Content} (hfree : a.DraftsFreely t.view)
    (hmade : Keeps ∅ t.view t₁.view) (h : t₁.write a.draftPath content = .ok t₂) :
    Keeps (a.drafted t.view) t.view t₂.view := by
  obtain ⟨l, hl, hview, -⟩ := view_draft hfree hmade h
  rw [hview]
  exact (hmade.mono (Set.empty_subset _)).trans (Keeps.update hl _)

/-! ## Writing -/

/-- Where writing fails, only the draft may be left. -/
theorem keeps_of_write_error {e : EmitError} (hfree : a.DraftsFreely t.view)
    (h : a.write t = (t', .error e)) :
    Keeps (a.drafted t.view) t.view t'.view := by
  have hmade := Tree.keeps_makeDirectories t (a.path.parent?.getD ⟨[]⟩)
  unfold write at h
  split at h
  · next heq =>
    obtain ⟨rfl, -⟩ := Prod.mk.inj h
    rw [heq] at hmade
    exact hmade.mono (Set.empty_subset _)
  · next heq =>
    rw [heq] at hmade
    split at h
    · obtain ⟨rfl, -⟩ := Prod.mk.inj h
      exact hmade.mono (Set.empty_subset _)
    -- the move failed, after which the draft is removed if that succeeds
    · next drafted hdraft =>
      split at h
      · cases h
      · obtain ⟨rfl, -⟩ := Prod.mk.inj h
        have hkeeps := keeps_draft hfree hmade hdraft
        cases hremove : drafted.removeFile a.draftPath with
        | error cause => exact hkeeps
        | ok removed =>
          obtain ⟨l, hl, -, -, hreach⟩ := view_draft hfree hmade hdraft
          obtain ⟨l', hl', hview⟩ := Tree.view_removeFile hremove
          obtain rfl := hreach l' hl'
          have hremoved : Keeps (a.drafted t.view) drafted.view removed.view := by
            rw [hview]
            exact Keeps.update hl _
          exact hkeeps.trans hremoved

/-- What a tree holds after an artifact was written, compared with what it held before. -/
structure Replaced (v v' : View) (a : Artifact) : Prop where
  /-- Besides the two locations, only directories were made. -/
  keeps : Keeps (a.touched v) v v'
  /-- The path leads to its place, and there is a file with the content. -/
  reached : ∃ l, v.place? a.path = some l ∧ v'.reach .target a.path = .ok l ∧
    v' l = some (.file (.text a.content))
  /-- No draft is left. -/
  drafted : ∀ l, v.place? a.draftPath = some l → v' l = none
  /-- The path does not go over locations that it did not go over before. -/
  course : (v'.courseTo a.path).passed ⊆ (v.courseTo a.path).passed
  /-- No links were made. -/
  links : ∀ l target, v' l = some (.link target) → v l = some (.link target)

/-- How a draft was moved into its place: the way of the path, without its last name `n`, leads to the
directory `last`, in which the draft and the place are. The views are those before the write, with the
draft, and behind the move. -/
structure Moved (v v₂ v' : View) (a : Artifact) (way : List Step) (last : Location) (n : Text) : Prop
    where
  steps : steps a.path.text = way ++ [.name n]
  /-- No link was made. -/
  links : ∀ m target, v₂ m = some (.link target) ↔ v m = some (.link target)
  goal : (v.course linkLimit [] way).goal.map (·.1) = some last
  /-- The way was gone to its end. -/
  opened : ∀ m ∈ (v.course linkLimit [] way).passed,
    v₂ m = some .directory ∨ ∃ target, v₂ m = some (.link target)
  reached : v₂.reach .entry a.path = .ok (last ++ [n])
  place : v.place? a.path = some (last ++ [n])
  free : v₂ (last ++ [n]) ≠ some .directory
  draftPlace : v.place? a.draftPath = some (last ++ [a.draftName])
  draftName_ne : a.draftName ≠ n
  draft : v₂ (last ++ [a.draftName]) = some (.file (.text a.content))
  view : v' = Function.update (Function.update v₂ (last ++ [a.draftName]) none) (last ++ [n])
    (some (.file (.text a.content)))

/-- Writing a draft and moving it is a move from the place of the draft to that of the artifact. -/
theorem exists_moved (hfree : a.DraftsFreely t.view) (hmade : Keeps ∅ t.view t₁.view)
    (hdraft : t₁.write a.draftPath (.text a.content) = .ok t₂)
    (hmove : t₂.moveFile a.draftPath a.path = .ok t') :
    ∃ way last n, Moved t.view t₂.view t'.view a way last n := by
  obtain ⟨draft, ⟨hplace', -⟩, hview, hlinks, hreach'⟩ := view_draft hfree hmade hdraft
  have hfile : t₂.view draft = some (.file (.text a.content)) := by rw [hview, Function.update_self]
  obtain ⟨l, hl, hmoved⟩ := Tree.view_moveFile hmove
  obtain rfl := hreach' l hl
  obtain ⟨n, place, hn, hname, hreach, hfree', hview'⟩ := hmoved _ hfile
  obtain ⟨way, way', hsteps, hsteps', hne, hway⟩ := a.exists_steps_of_isEntryName hn hname
  -- the place is the last name in the directory that the way leads to
  have hwalk := View.walk_of_reach hreach
  rw [hsteps] at hwalk
  obtain ⟨hopened, last, hlast, hp⟩ := View.of_walk_append_name hwalk
  obtain rfl := hp.resolve_right fun ⟨hentry, _⟩ => hentry rfl
  rw [View.course_congr fun m _ => hlinks m] at hlast hopened
  -- and so is the draft
  have hlast' := hlast
  rw [View.course_congr_stay hway] at hlast'
  obtain rfl := Option.some.inj (hplace'.symm.trans (View.place?_eq hsteps' hlast'))
  exact ⟨way, last, n, hsteps, hlinks, hlast, hopened, hreach, View.place?_eq hsteps hlast, hfree',
    hplace', hne, hfile, hview'⟩

namespace Moved

variable {v₂ v' : View} {way : List Step} {last : Location} {n : Text}

theorem draft_ne_place (h : Moved v v₂ v' a way last n) : last ++ [a.draftName] ≠ last ++ [n] :=
  fun heq => h.draftName_ne (by simpa using heq)

theorem view_place (h : Moved v v₂ v' a way last n) :
    v' (last ++ [n]) = some (.file (.text a.content)) := by
  rw [h.view, Function.update_self]

/-- The draft is gone after the move. -/
theorem view_draft (h : Moved v v₂ v' a way last n) : v' (last ++ [a.draftName]) = none := by
  rw [h.view, Function.update_of_ne h.draft_ne_place, Function.update_self]

theorem view_of_ne (h : Moved v v₂ v' a way last n) {m : Location} (hplace : m ≠ last ++ [n])
    (hdraft : m ≠ last ++ [a.draftName]) : v' m = v₂ m := by
  rw [h.view, Function.update_of_ne hplace, Function.update_of_ne hdraft]

/-- The way goes over neither of the two locations, unless a link at the place is on it. -/
theorem view_of_passed (h : Moved v v₂ v' a way last n)
    (hown : ∀ l ∈ (v.wayTo a.path).passed, v.place? a.path = some l →
      ∀ target, v l ≠ some (.link target))
    {m : Location} (hm : m ∈ (v.course linkLimit [] way).passed) : v' m = v₂ m := by
  have hwayTo : v.wayTo a.path = v.course linkLimit [] way := by
    rw [View.wayTo, h.steps, List.dropLast_concat]
  apply h.view_of_ne
  · rintro rfl
    rcases h.opened _ hm with hdir | ⟨target, hlink⟩
    · exact h.free hdir
    · rw [← hwayTo] at hm
      exact hown _ hm h.place target ((h.links _ target).1 hlink)
  · rintro rfl
    have hsight := h.opened _ hm
    rw [h.draft] at hsight
    simp at hsight

/-- The move makes no links. -/
theorem links_before (h : Moved v v₂ v' a way last n) {m : Location} {target : Text}
    (hm : v' m = some (.link target)) : v m = some (.link target) := by
  have hplace : m ≠ last ++ [n] := by
    rintro rfl
    rw [h.view_place] at hm
    cases hm
  have hdraft : m ≠ last ++ [a.draftName] := by
    rintro rfl
    rw [h.view_draft] at hm
    cases hm
  rw [h.view_of_ne hplace hdraft] at hm
  exact (h.links m target).1 hm

/-- Writing the draft and moving it touch the two places only. -/
theorem keeps (h : Moved v v₂ v' a way last n) (hkeeps : Keeps (a.drafted v) v v₂) :
    Keeps (a.touched v) v v' := by
  have hfresh : v (last ++ [n]) ≠ some .directory := fun hdir =>
    h.free ((hkeeps.ne_none (fun hl => hl.2 hdir) (by simp [hdir])).trans hdir)
  have hfresh' : v (last ++ [a.draftName]) ≠ some .directory := fun hdir => by
    have hsame := hkeeps.ne_none (fun hl => hl.2 hdir) (by simp [hdir])
    rw [h.draft, hdir] at hsame
    cases hsame
  have hmem : last ++ [n] ∈ a.touched v := ⟨.inl h.place, hfresh⟩
  have hmem' : last ++ [a.draftName] ∈ a.touched v := ⟨.inr h.draftPlace, hfresh'⟩
  rw [h.view]
  exact ((hkeeps.mono (a.drafted_subset _)).trans (Keeps.update hmem' _)).trans (Keeps.update hmem _)

/-- Where the way is as it was, the path leads to its place, and goes over what it went over before. -/
theorem courses (h : Moved v v₂ v' a way last n)
    (hsame : ∀ m ∈ (v.course linkLimit [] way).passed, v' m = v₂ m) :
    v'.reach .target a.path = .ok (last ++ [n]) ∧
      (v'.courseTo a.path).passed ⊆ (v.courseTo a.path).passed := by
  have hcourse : v₂.course linkLimit [] way = v.course linkLimit [] way :=
    View.course_congr fun m _ => h.links m
  have hcourse' : v'.course linkLimit [] way = v.course linkLimit [] way :=
    View.course_congr fun m hm target => by rw [hsame m hm, h.links]
  have hnolink : ∀ target, v' (last ++ [n]) ≠ some (.link target) := by simp [h.view_place]
  -- no link is at the place, so both walks end there
  constructor
  · have hwalk := View.walk_of_reach h.reached
    refine View.reach_of_reach h.reached ?_
    rw [h.steps] at hwalk ⊢
    exact View.walk_append_name hwalk (hcourse ▸ hsame) (hcourse ▸ h.goal) hnolink
  · obtain ⟨rest, hpassed, -⟩ := View.passed_append_name (n := n) h.goal
    obtain ⟨rest', hpassed', hrest'⟩ :=
      View.passed_append_name (v := v') (n := n) (hcourse' ▸ h.goal)
    rw [View.courseTo, View.courseTo, h.steps, hpassed, hpassed', hrest' hnolink, hcourse']
    simp

end Moved

/-- A draft that is moved to its target replaces the artifact. -/
theorem replaced_of_move (hfree : a.DraftsFreely t.view)
    (hown : ∀ l ∈ (t.view.wayTo a.path).passed, t.view.place? a.path = some l →
      ∀ target, t.view l ≠ some (.link target))
    (hmade : Keeps ∅ t.view t₁.view) (hdraft : t₁.write a.draftPath (.text a.content) = .ok t₂)
    (hmove : t₂.moveFile a.draftPath a.path = .ok t') : Replaced t.view t'.view a := by
  obtain ⟨way, last, n, hmoved⟩ := exists_moved hfree hmade hdraft hmove
  obtain ⟨hreach, hcourse⟩ := hmoved.courses fun m hm => hmoved.view_of_passed hown hm
  constructor
  case keeps => exact hmoved.keeps (keeps_draft hfree hmade hdraft)
  case reached => exact ⟨_, hmoved.place, hreach, hmoved.view_place⟩
  case drafted =>
    intro l hl
    obtain rfl := Option.some.inj (hmoved.draftPlace.symm.trans hl)
    exact hmoved.view_draft
  case course => exact hcourse
  case links => exact fun m target hm => hmoved.links_before hm

/-- A successful write puts the artifact in its place. -/
theorem replaced_of_write (hfree : a.DraftsFreely t.view)
    (hown : ∀ l ∈ (t.view.wayTo a.path).passed, t.view.place? a.path = some l →
      ∀ target, t.view l ≠ some (.link target))
    (h : a.write t = (t', .ok ())) : Replaced t.view t'.view a := by
  have hmade := Tree.keeps_makeDirectories t (a.path.parent?.getD ⟨[]⟩)
  unfold write at h
  split at h
  · cases h
  · next heq =>
    rw [heq] at hmade
    split at h
    · cases h
    · next hdraft =>
      split at h
      · next hmove =>
        obtain ⟨rfl, -⟩ := Prod.mk.inj h
        exact replaced_of_move hfree hown hmade hdraft hmove
      · cases h

end Artifact

end Scaffold
