import Mathlib.Data.Set.Basic
import Scaffold.Proofs.Disk.View

/-!
# The course of a path

The course of a path lists the locations that the path goes over, as if nothing on it were missing
or in the way, and says where it ends. It depends on the links it goes over and on nothing else
(`View.course_congr`), and a walk sees nothing outside it (`View.walk_congr`).

While files are written, a view changes in two ways: directories are made where nothing stood, and a
set of locations is written to. A walk whose course stays clear of that set ends where it ended
before, if it ended at something (`View.walk_of_keeps`). In the other direction, a walk that ends at
a file ended there before, unless its course climbs out of a directory that was missing
(`View.walk_of_keeps_file`).
-/

namespace Scaffold

open Scaffold.Tree (Step Aim steps linkLimit nameLimit)

/-- What a way goes over, and where it ends. -/
structure Course where
  /-- The locations of the names on the way, in order. -/
  passed : List Location
  /-- The directory at the end, and how many more links may be followed from there; nothing, if there
  are too many links on the way. -/
  goal : Option (Location × Nat)
  deriving DecidableEq, Repr

namespace Course

/-- The course that goes over a location first. -/
def passing (l : Location) (c : Course) : Course := ⟨l :: c.passed, c.goal⟩

/-- The course that goes on from its end. -/
def andThen (c : Course) (next : Location → Nat → Course) : Course :=
  match c.goal with
  | none => c
  | some (here, links) => ⟨c.passed ++ (next here links).passed, (next here links).goal⟩

@[simp]
theorem passed_passing (l : Location) (c : Course) : (c.passing l).passed = l :: c.passed := rfl

/-- Going on after a course that passes a location passes it as well. -/
theorem andThen_passing (l : Location) (c : Course) (next : Location → Nat → Course) :
    (c.passing l).andThen next = (c.andThen next).passing l := by
  obtain ⟨passed, goal⟩ := c
  cases goal <;> rfl

end Course

namespace View

variable {v v' : View} {links : Nat} {here : Location} {way : List Step}

/-- The course from a directory. Links are followed, and every other name is taken for that of a
directory. -/
def course (v : View) (links : Nat) (here : Location) : List Step → Course
  | [] => ⟨[], some (here, links)⟩
  | .stay :: rest => course v links here rest
  | .slash :: rest => course v links here rest
  | .up :: rest => course v links here.dropLast rest
  | .name n :: rest =>
    match v (here ++ [n]) with
    | some (.link target) =>
      match links with
      | 0 => ⟨[here ++ [n]], none⟩
      | links + 1 =>
        (course v links (linkStart here target) (steps target ++ rest)).passing (here ++ [n])
    | _ => (course v links (here ++ [n]) rest).passing (here ++ [n])
termination_by steps => (links, steps.length)

/-- The course of a path. -/
def courseTo (v : View) (p : Path) : Course := v.course linkLimit [] (steps p.text)

/-- The course of a path without its last step. -/
def wayTo (v : View) (p : Path) : Course := v.course linkLimit [] (steps p.text).dropLast

/-- The location of the last name of a path. -/
def place? (v : View) (p : Path) : Option Location :=
  match (steps p.text).getLast?, (v.wayTo p).goal with
  | some (.name n), some (here, _) => some (here ++ [n])
  | _, _ => none

/-! ## Parts of a course -/

/-- The course of two ways is the course of the first and then, from where it ends, of the second.
-/
theorem course_append (way rest : List Step) :
    v.course links here (way ++ rest) =
      (v.course links here way).andThen fun here links => v.course links here rest := by
  fun_induction course v links here way with
  | case1 => simp [Course.andThen]
  | case2 _ _ _ ih => rw [List.cons_append, course, ih]
  | case3 _ _ _ ih => rw [List.cons_append, course, ih]
  | case4 _ _ _ ih => rw [List.cons_append, course, ih]
  | case5 _ _ _ _ hlink => simp [course, hlink, Course.andThen]
  | case6 here n way target hlink links ih =>
    rw [List.cons_append, course, hlink]
    dsimp only
    rw [← List.append_assoc, ih, Course.andThen_passing]
  | case7 links here n way hlink ih =>
    rw [List.cons_append, course, Course.andThen_passing, ← ih]
    split
    · next target h => exact absurd h (hlink target)
    · rfl

/-- Staying where one is does not change a course. -/
theorem course_filter_stay (before way : List Step) :
    v.course links here (before ++ way.filter (· ≠ .stay)) =
      v.course links here (before ++ way) := by
  -- The steps in front are generalized: a step that stays is skipped behind any of them.
  induction way generalizing before with
  | nil => rfl
  | cons step way ih =>
    by_cases hstay : step = .stay
    · subst hstay
      have hskip : v.course links here (before ++ .stay :: way) =
          v.course links here (before ++ way) := by
        simp only [course_append, course]
      rw [hskip, ← ih]
      simp
    · rw [List.filter_cons_of_pos (by simpa using hstay), List.append_cons, ih, ← List.append_cons]

/-- Ways that differ in staying only have the same course. -/
theorem course_congr_stay {way way' : List Step}
    (h : way.filter (· ≠ .stay) = way'.filter (· ≠ .stay)) :
    v.course links here way = v.course links here way' := by
  have hway : v.course links here (way.filter (· ≠ .stay)) = v.course links here way :=
    course_filter_stay [] way
  rw [h] at hway
  exact hway.symm.trans (course_filter_stay [] way')

/-- A course depends on the links that it goes over. -/
theorem course_congr (h : ∀ l ∈ (v.course links here way).passed, ∀ target,
    v' l = some (.link target) ↔ v l = some (.link target)) :
    v'.course links here way = v.course links here way := by
  -- Cases 5 and 6 stand at a link, case 7 at anything else; the other steps look at nothing.
  fun_induction course v links here way with
  | case1 => rw [course]
  | case2 _ _ _ ih => rw [course, ih h]
  | case3 _ _ _ ih => rw [course, ih h]
  | case4 _ _ _ ih => rw [course, ih h]
  | case5 here n _ target hlink =>
    have hlink' := (h (here ++ [n]) (by simp) target).2 hlink
    rw [course, hlink']
  | case6 here n _ target hlink links ih =>
    obtain ⟨hn, hrest⟩ := List.forall_mem_cons.1 h
    rw [course, (hn target).2 hlink]
    dsimp only
    rw [ih hrest]
  | case7 links here n _ hlink ih =>
    obtain ⟨hn, hrest⟩ := List.forall_mem_cons.1 h
    rw [course, ih hrest]
    split
    · next target hlink' => exact absurd ((hn target).1 hlink') (hlink target)
    · rfl

/-- The course of a way to a last name goes over the place of that name, and ends there if no link
stands there. -/
theorem passed_append_name {n : Text} {last : Location}
    (hlast : (v.course links here way).goal.map (·.1) = some last) :
    ∃ rest, (v.course links here (way ++ [.name n])).passed =
        (v.course links here way).passed ++ (last ++ [n]) :: rest ∧
      ((∀ target, v (last ++ [n]) ≠ some (.link target)) → rest = []) := by
  obtain ⟨⟨last, left⟩, hgoal, rfl⟩ := Option.map_eq_some_iff.1 hlast
  rw [course_append, Course.andThen, hgoal]
  dsimp only
  cases hsight : v (last ++ [n]) with
  | none => exact ⟨[], by simp [course, hsight]⟩
  | some s =>
    cases s with
    | file | directory => exact ⟨[], by simp [course, hsight]⟩
    | link target =>
      rw [course, hsight]
      cases left with
      | zero => exact ⟨[], by simp⟩
      | succ left => exact ⟨_, rfl, fun h => absurd rfl (h target)⟩

/-! ## Walks along a course -/

/-- A walk sees nothing outside its course. -/
theorem walk_congr (aim : Aim) (h : ∀ l ∈ (v.course links here way).passed, v' l = v l) :
    v'.walk aim links here way = v.walk aim links here way := by
  -- The course and the walk take the same steps, so the cases of the one are those of the other.
  fun_induction course v links here way with
  | case1 => rw [walk, walk]
  | case2 _ _ _ ih => rw [walk, walk, ih h]
  | case3 _ _ _ ih => rw [walk, walk, ih h]
  | case4 _ _ _ ih => rw [walk, walk, ih h]
  | case5 here n _ target hlink =>
    have hlink' := (h (here ++ [n]) (by simp)).trans hlink
    rw [walk, walk, hlink, hlink']
  | case6 here n _ target hlink links ih =>
    obtain ⟨hn, hrest⟩ := List.forall_mem_cons.1 h
    rw [walk, walk, hn, hlink]
    dsimp only
    rw [ih hrest]
  | case7 links here n _ hlink ih =>
    obtain ⟨hn, hrest⟩ := List.forall_mem_cons.1 h
    rw [walk, walk, hn, ih hrest]
    split
    · rfl
    · split
      · rfl
      · split
        · rfl
        · next target hlink' => exact absurd hlink' (hlink target)
        · rfl
        · rfl

/-- What a successful walk to a last name says: the way goes over directories and links, and the walk
ends at that name, unless it follows a link there. -/
theorem of_walk_append_name {aim : Aim} {n : Text} {l : Location}
    (h : v.walk aim links here (way ++ [.name n]) = .ok l) :
    (∀ m ∈ (v.course links here way).passed,
      v m = some .directory ∨ ∃ target, v m = some (.link target)) ∧
    ∃ last, (v.course links here way).goal.map (·.1) = some last ∧
      (l = last ++ [n] ∨ aim ≠ .entry ∧ ∃ target, v (last ++ [n]) = some (.link target)) := by
  fun_induction course v links here way with
  | case1 links here =>
    refine ⟨by simp, here, rfl, ?_⟩
    obtain ⟨-, hend⟩ | ⟨target, -, hlink, -, haim, -⟩ | ⟨-, rfl⟩ := of_walk_name h
    · rw [walk] at hend
      exact .inl (Except.ok.inj hend).symm
    · exact .inr ⟨haim rfl, target, hlink⟩
    · exact .inl rfl
  | case2 _ _ _ ih => exact ih (by rwa [List.cons_append, walk] at h)
  | case3 _ _ _ ih => exact ih (by rwa [List.cons_append, walk] at h)
  | case4 _ _ _ ih => exact ih (by rwa [List.cons_append, walk] at h)
  | case5 here m way target hlink =>
    obtain ⟨hdir, -⟩ | ⟨_, _, -, hleft, -⟩ | ⟨hend, -⟩ := of_walk_name h
    · simp [hlink] at hdir
    · cases hleft
    · simp at hend
  | case6 here m way target hlink links ih =>
    obtain ⟨hdir, -⟩ | ⟨target', left, hlink', hleft, -, hrest⟩ | ⟨hend, -⟩ := of_walk_name h
    · simp [hlink] at hdir
    · obtain rfl : target = target' := by simpa [hlink] using hlink'
      obtain rfl := Nat.succ.inj hleft
      obtain ⟨hopen, hgoal⟩ := ih (by rwa [List.append_assoc])
      exact ⟨List.forall_mem_cons.2 ⟨.inr ⟨target, hlink⟩, hopen⟩, hgoal⟩
    · simp at hend
  -- no link, so a directory, since more steps follow
  | case7 links here m way hlink ih =>
    obtain ⟨hdir, hrest⟩ | ⟨target, -, hlink', -⟩ | ⟨hend, -⟩ := of_walk_name h
    · obtain ⟨hopen, hgoal⟩ := ih hrest
      exact ⟨List.forall_mem_cons.2 ⟨.inl hdir, hopen⟩, hgoal⟩
    · exact absurd hlink' (hlink target)
    · simp at hend

/-- A walk to a last name ends there as soon as no link stands there. -/
theorem walk_append_name {aim aim' : Aim} {n : Text} {l last : Location}
    (h : v.walk aim links here (way ++ [.name n]) = .ok l)
    (hway : ∀ m ∈ (v.course links here way).passed, v' m = v m)
    (hlast : (v.course links here way).goal.map (·.1) = some last)
    (hlink : ∀ target, v' (last ++ [n]) ≠ some (.link target)) :
    v'.walk aim' links here (way ++ [.name n]) = .ok (last ++ [n]) := by
  -- The first walk succeeds, so what stands on the way is a directory or a link in both views.
  fun_induction course v links here way with
  | case1 links here =>
    obtain rfl := Option.some.inj hlast
    rw [List.nil_append, walk_last] at h ⊢
    split at h
    · cases h
    · next hshort =>
      rw [if_neg hshort]
      split
      · next target hlink' => exact absurd hlink' (hlink target)
      · rfl
  | case2 _ _ _ ih =>
    rw [List.cons_append, walk] at h ⊢
    exact ih h hway hlast
  | case3 _ _ _ ih =>
    rw [List.cons_append, walk] at h ⊢
    exact ih h hway hlast
  | case4 _ _ _ ih =>
    rw [List.cons_append, walk] at h ⊢
    exact ih h hway hlast
  | case5 here m way target hm => cases hlast
  | case6 here m way target hm links ih =>
    obtain ⟨hhere, hrest⟩ := List.forall_mem_cons.1 hway
    rw [List.cons_append, walk_inner, hm] at h
    rw [List.cons_append, walk_inner, hhere, hm]
    split at h
    · cases h
    · next hshort =>
      rw [if_neg hshort]
      dsimp only
      rw [← List.append_assoc]
      exact ih (by rwa [List.append_assoc]) hrest hlast
  | case7 links here m way hm ih =>
    obtain ⟨hhere, hrest⟩ := List.forall_mem_cons.1 hway
    rw [List.cons_append, walk_inner] at h
    rw [List.cons_append, walk_inner, hhere]
    split at h
    · cases h
    · next hshort =>
      rw [if_neg hshort]
      split at h
      · exact ih h hrest hlast
      · next target hlink' => exact absurd hlink' (hm target)
      · cases h
      · cases h

/-- A walk to a file ends at the last location of its course, and goes over directories and links
before. -/
theorem exists_passed_eq (hv : v.Rooted) (hhere : v here = some .directory) {l : Location}
    {content : Content} (h : v.walk .target links here way = .ok l)
    (hl : v l = some (.file content)) : ∃ front, (v.course links here way).passed = front ++ [l] ∧
      ∀ m ∈ front, v m = some .directory ∨ ∃ target, v m = some (.link target) := by
  -- The walk starts in a directory, which `hhere` carries from step to step.
  fun_induction course v links here way with
  | case1 =>
    rw [walk] at h
    obtain rfl := Except.ok.inj h
    rw [hhere] at hl
    cases hl
  | case2 _ _ _ ih => exact ih hhere (by rwa [walk] at h)
  | case3 _ _ _ ih => exact ih hhere (by rwa [walk] at h)
  | case4 _ _ _ ih => exact ih (hv.dropLast hhere) (by rwa [walk] at h)
  | case5 here n way target hlink =>
    obtain ⟨hdir, -⟩ | ⟨_, _, -, hleft, -⟩ | ⟨-, rfl⟩ := of_walk_name h
    · simp [hlink] at hdir
    · cases hleft
    · simp [hlink] at hl
  | case6 here n way target hlink links ih =>
    obtain ⟨hdir, -⟩ | ⟨target', left, hlink', hleft, -, hrest⟩ | ⟨-, rfl⟩ := of_walk_name h
    · simp [hlink] at hdir
    · obtain rfl : target = target' := by simpa [hlink] using hlink'
      obtain rfl := Nat.succ.inj hleft
      obtain ⟨front, hpassed, hopen⟩ := ih (hv.at_linkStart hhere target) hrest
      refine ⟨(here ++ [n]) :: front, ?_, List.forall_mem_cons.2 ⟨.inr ⟨target, hlink⟩, hopen⟩⟩
      rw [Course.passed_passing, hpassed, List.cons_append]
    · simp [hlink] at hl
  | case7 links here n way hlink ih =>
    rw [Course.passed_passing]
    obtain ⟨hdir, hrest⟩ | ⟨target, -, hlink', -⟩ | ⟨rfl, rfl⟩ := of_walk_name h
    · obtain ⟨front, hpassed, hopen⟩ := ih hdir hrest
      refine ⟨(here ++ [n]) :: front, ?_, List.forall_mem_cons.2 ⟨.inl hdir, hopen⟩⟩
      rw [hpassed, List.cons_append]
    · exact absurd hlink' (hlink target)
    · exact ⟨[], by simp [course], by simp⟩

/-- A walk to a file ends its course there. -/
theorem getLast?_passed (hv : v.Rooted) (hhere : v here = some .directory) {l : Location}
    {content : Content} (h : v.walk .target links here way = .ok l)
    (hl : v l = some (.file content)) : (v.course links here way).passed.getLast? = some l := by
  obtain ⟨front, hpassed, -⟩ := exists_passed_eq hv hhere h hl
  rw [hpassed, List.getLast?_concat]

/-! ## Walks while files are written -/

/-- Nothing changed outside a set of locations, but that directories were made. -/
def Keeps (touched : Set Location) (v v' : View) : Prop :=
  ∀ l ∉ touched, v' l = v l ∨ v l = none ∧ v' l = some .directory

namespace Keeps

variable {touched touched' : Set Location} {v'' : View}

theorem refl (touched : Set Location) (v : View) : Keeps touched v v := fun _ _ => .inl rfl

theorem trans (h : Keeps touched v v') (h' : Keeps touched v' v'') : Keeps touched v v'' := by
  intro l hl
  rcases h l hl with heq | ⟨hnone, hdir⟩
  · rw [← heq]
    exact h' l hl
  · rcases h' l hl with heq' | ⟨hnone', -⟩
    · exact .inr ⟨hnone, heq'.trans hdir⟩
    · rw [hdir] at hnone'
      cases hnone'

theorem mono (h : Keeps touched v v') (hsub : touched ⊆ touched') : Keeps touched' v v' :=
  fun l hl => h l fun hmem => hl (hsub hmem)

theorem update {l : Location} (hl : l ∈ touched) (s : Option Sight) :
    Keeps touched v (Function.update v l s) :=
  fun _ hm => .inl (Function.update_of_ne (ne_of_mem_of_not_mem hl hm).symm _ _)

/-- Links and files stay as they are, and none are made. -/
theorem eq_iff (h : Keeps touched v v') {l : Location} (hl : l ∉ touched) {s : Sight}
    (hs : s ≠ .directory) : v' l = some s ↔ v l = some s := by
  rcases h l hl with heq | ⟨hnone, hdir⟩
  · rw [heq]
  · rw [hnone, hdir]
    simpa using Ne.symm hs

/-- What is there, outside the touched locations, stays as it is. -/
theorem ne_none (h : Keeps touched v v') {l : Location} (hl : l ∉ touched) (hne : v l ≠ none) :
    v' l = v l :=
  (h l hl).resolve_right fun hmade => hne hmade.1

/-- A course that goes over no touched location stays the same. -/
theorem course_eq (h : Keeps touched v v')
    (hclear : ∀ l ∈ (v.course links here way).passed, l ∉ touched) :
    v'.course links here way = v.course links here way :=
  course_congr fun l hl _ => h.eq_iff (hclear l hl) (by simp)

end Keeps

variable {touched : Set Location}

/-- A walk did not end where something is missing. -/
def Settled (v : View) (result : Except Cause Location) : Prop :=
  result ≠ .error .noSuchFile ∧ ∀ l, result = .ok l → v l ≠ none

/-- A walk that did not end where something is missing ends there still. -/
theorem walk_of_keeps (aim : Aim) (h : Keeps touched v v')
    (hclear : ∀ l ∈ (v.course links here way).passed, l ∉ touched)
    (hs : v.Settled (v.walk aim links here way)) :
    v'.walk aim links here way = v.walk aim links here way := by
  fun_induction course v links here way with
  | case1 => rw [walk, walk]
  | case2 _ _ _ ih =>
    rw [walk] at hs
    rw [walk, walk, ih hclear hs]
  | case3 _ _ _ ih =>
    rw [walk] at hs
    rw [walk, walk, ih hclear hs]
  | case4 _ _ _ ih =>
    rw [walk] at hs
    rw [walk, walk, ih hclear hs]
  | case5 here n _ target hlink =>
    have hlink' := (h.eq_iff (hclear (here ++ [n]) (by simp)) (by simp)).2 hlink
    rw [walk, walk, hlink, hlink']
  | case6 here n way target hlink links ih =>
    obtain ⟨hn, hrest⟩ := List.forall_mem_cons.1 hclear
    rw [walk, hlink] at hs
    rw [walk, walk, hlink, (h.eq_iff hn (by simp)).2 hlink]
    split
    · rfl
    · next hslash =>
      split
      · rfl
      · next hshort =>
        dsimp only at hs ⊢
        split
        · rfl
        · next hentry =>
          rw [if_neg hslash, if_neg hshort, if_neg hentry] at hs
          exact ih hrest hs
  | case7 links here n way hlink ih =>
    obtain ⟨hn, hrest⟩ := List.forall_mem_cons.1 hclear
    rw [walk] at hs
    rw [walk, walk]
    split
    · rfl
    · next hslash =>
      split
      · rfl
      · next hshort =>
        rw [if_neg hslash, if_neg hshort] at hs
        cases hsight : v (here ++ [n]) with
        | none =>
          -- Nothing stands there, which the walk cannot have met.
          rw [hsight] at hs
          dsimp only at hs
          split at hs
          · exact absurd hsight (hs.2 _ rfl)
          · exact absurd rfl hs.1
        | some s =>
          rw [h.ne_none hn (by simp [hsight]), hsight]
          rw [hsight] at hs
          cases s with
          | file => rfl
          | link target => exact absurd hsight (hlink target)
          | directory => exact ih hrest hs

/-- A walk that ends at a file ended there before, if its course never leaves a directory that was
missing. -/
theorem walk_of_keeps_file (h : Keeps touched v v')
    (hclear : ∀ l ∈ (v.course links here way).passed, l ∉ touched)
    (hsteady : (v.course links here way).passed.Pairwise fun l m => v l = none → l <+: m)
    (hv : v.Rooted) (hv' : v'.Rooted) (hhere : v' here = some .directory) {l : Location}
    {content : Content} (hwalk : v'.walk .target links here way = .ok l)
    (hl : v' l = some (.file content)) : v.walk .target links here way = .ok l := by
  have hcourse := h.course_eq hclear
  have hlast := getLast?_passed hv' hhere hwalk hl
  rw [hcourse] at hlast
  obtain ⟨front, hpassed⟩ := List.getLast?_eq_some_iff.1 hlast
  have hmem : l ∈ (v.course links here way).passed := List.mem_of_getLast? hlast
  have hfile : v l = some (.file content) := (h.eq_iff (hclear l hmem) (by simp)).1 hl
  -- What was missing on the course has the file below it, so nothing was.
  have hsame : ∀ m ∈ (v.course links here way).passed, v' m = v m := by
    intro m hm
    refine h.ne_none (hclear m hm) fun hnone => ?_
    have hne : m ≠ l := fun heq => by simp [heq ▸ hnone] at hfile
    rw [hpassed] at hm hsteady
    have hfront : m ∈ front := by simpa [hne] using hm
    have hpre := (List.pairwise_append.1 hsteady).2.2 m hfront l (by simp) hnone
    have hdir := hv.above_of_prefix hpre hne (by simp [hfile])
    rw [hdir] at hnone
    cases hnone
  rw [← walk_congr .target hsame]
  exact hwalk

end View

end Scaffold
