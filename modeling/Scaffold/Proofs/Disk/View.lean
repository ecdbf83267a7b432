import Mathlib.Logic.Function.Basic
import Scaffold.Disk.Walk
import Scaffold.Proofs.Table

/-!
# What stands where

A view of a file system says what stands at each location, without what is below it. Putting a file
or an empty directory in a tree, or taking something out, changes the view at one location only
(`Tree.view_place`, `Tree.view_remove`), and walking needs no more than the view
(`Tree.location_walk`, `Tree.location_reach`).
-/

namespace Scaffold

open Scaffold.Tree (Step Aim Trail Spot steps linkLimit nameLimit refusal?)

/-- What stands at a location, without what is below it. -/
inductive Sight where
  | file (content : Content)
  | link (target : Text)
  | directory
  deriving DecidableEq, Repr

/-- What stands at each location of a file system. -/
abbrev View := Location → Option Sight

namespace Entry

/-- What is seen of an entry. -/
def sight : Entry → Sight
  | .file content => .file content
  | .link target => .link target
  | .directory _ => .directory

@[simp]
theorem sight_directory (entries : List (Text × Entry)) : (directory entries).sight = .directory :=
  rfl

/-- What stands at a location, seen from an entry. -/
def view (e : Entry) : View := fun l => (e.find? l).map sight

@[simp]
theorem view_nil (e : Entry) : e.view [] = some e.sight := rfl

/-- What is seen below a name is seen from the entry under this name. -/
theorem view_cons (e : Entry) (n : Text) (l : Location) :
    e.view (n :: l) = (Table.getRow? n e.entries).bind (·.view l) := by
  rw [view, find?_cons, Option.map_bind]
  rfl

/-- What has no entries shows nothing below itself. -/
theorem view_eq_none {e : Entry} (he : e.entries = []) {l : Location} (hl : l ≠ []) :
    e.view l = none := by
  obtain ⟨n, l, rfl⟩ := List.exists_cons_of_ne_nil hl
  rw [view_cons, he]
  rfl

/-- What has something under a name is a directory. -/
theorem sight_of_getRow? {e next : Entry} {n : Text} (h : Table.getRow? n e.entries = some next) :
    e.sight = .directory := by
  cases e with
  | directory => rfl
  | file | link => cases h

/-- What is no directory has no entries. -/
theorem entries_eq_nil {e : Entry} (h : e.sight ≠ .directory) : e.entries = [] := by
  cases e with
  | directory => exact absurd rfl h
  | file | link => rfl

/-- What something stands below is a directory. -/
theorem view_eq_directory {e : Entry} {h : Location} {n : Text} (hn : e.view (h ++ [n]) ≠ none) :
    e.view h = some .directory := by
  induction h generalizing e with
  | nil =>
    rw [List.nil_append, view_cons] at hn
    cases hrow : Table.getRow? n e.entries with
    | none => exact absurd (by rw [hrow]; rfl) hn
    | some next => rw [view_nil, sight_of_getRow? hrow]
  | cons m h ih =>
    rw [List.cons_append, view_cons] at hn
    rw [view_cons]
    cases hrow : Table.getRow? m e.entries with
    | none => exact absurd (by rw [hrow]; rfl) hn
    | some next =>
      rw [hrow] at hn
      exact ih hn

/-- Something without entries, put in a directory where no directory stands. -/
theorem view_place {e new : Entry} {h : Location} {n : Text} (hh : e.view h = some .directory)
    (hn : e.view (h ++ [n]) ≠ some .directory) (hnew : new.entries = []) :
    (e.place (h ++ [n]) new).view = Function.update e.view (h ++ [n]) (some new.sight) := by
  -- along the way to the directory: on each step down, all other names keep what they show
  induction h generalizing e with
  | nil =>
    funext l
    have he : e.sight = .directory := Option.some.inj hh
    cases l with
    | nil => simp [place, he]
    | cons m l =>
      rw [List.nil_append, place, view_cons, entries_directory]
      -- under the name itself the new entry is seen, with nothing below; other rows stay
      by_cases hm : m = n
      · subst hm
        rw [Table.getRow?_putRow_self, Option.bind_some, place]
        cases l with
        | nil => simp
        | cons m' l =>
          rw [view_eq_none hnew (by simp), Function.update_of_ne (by simp), view_cons]
          cases hrow : Table.getRow? m e.entries with
          | none => rfl
          | some next =>
            rw [List.nil_append, view_cons, hrow] at hn
            exact (view_eq_none (entries_eq_nil fun hd => hn (congrArg some hd)) (by simp)).symm
      · rw [Table.getRow?_putRow_of_ne _ _ hm, Function.update_of_ne (by simp [hm]), view_cons]
  | cons m h ih =>
    funext l
    rw [view_cons] at hh
    obtain ⟨next, hrow, hnext⟩ := Option.bind_eq_some_iff.1 hh
    rw [List.cons_append, view_cons, hrow, Option.bind_some] at hn
    cases l with
    | nil => simp [place, sight_of_getRow? hrow]
    | cons m' l =>
      rw [List.cons_append, place, view_cons, entries_directory]
      by_cases hm : m' = m
      · subst hm
        rw [Table.getRow?_putRow_self, Option.bind_some, hrow, Option.getD_some, ih hnext hn]
        by_cases hl : l = h ++ [n]
        · simp [hl]
        · rw [Function.update_of_ne hl, Function.update_of_ne (by simp [hl]), view_cons, hrow,
            Option.bind_some]
      · rw [Table.getRow?_putRow_of_ne _ _ hm, Function.update_of_ne (by simp [hm]), view_cons]

/-- Something that is no directory, taken out. -/
theorem view_remove {e : Entry} {l : Location} (hl : l ≠ []) (hleaf : e.view l ≠ some .directory) :
    (e.remove l).view = Function.update e.view l none := by
  -- along the location, as `remove` goes
  induction l generalizing e with
  | nil => exact absurd rfl hl
  | cons n l ih =>
    funext l'
    rw [view_cons] at hleaf
    unfold remove
    cases hrow : Table.getRow? n e.entries with
    | none =>
      -- Nothing stands there, and nothing changes.
      have hnone : e.view (n :: l) = none := by rw [view_cons, hrow]; rfl
      rw [← hnone, Function.update_eq_self]
    | some next =>
      rw [hrow, Option.bind_some] at hleaf
      cases l' with
      | nil => simp [sight_of_getRow? hrow]
      | cons m l' =>
        dsimp only
        rw [view_cons, entries_directory]
        -- a view that begins with another name does not come to the row that is taken out
        by_cases hm : m = n
        · subst hm
          split
          · next hnil =>
            subst hnil
            rw [Table.getRow?_eraseRow_self, Option.bind_none]
            cases l' with
            | nil => simp
            | cons m' l' =>
              rw [Function.update_of_ne (by simp), view_cons, hrow, Option.bind_some]
              exact (view_eq_none (entries_eq_nil fun hd => hleaf (congrArg some hd))
                (by simp)).symm
          · next hcons =>
            rw [Table.getRow?_putRow_self, Option.bind_some, ih hcons hleaf]
            by_cases hl' : l' = l
            · simp [hl']
            · rw [Function.update_of_ne hl', Function.update_of_ne (by simp [hl']), view_cons, hrow,
                Option.bind_some]
        · have hrows : Table.getRow? m (if l = [] then Table.eraseRow n e.entries
              else Table.putRow n (next.remove l) e.entries) = Table.getRow? m e.entries := by
            split
            · exact Table.getRow?_eraseRow_of_ne hm _
            · exact Table.getRow?_putRow_of_ne _ _ hm
          rw [hrows, Function.update_of_ne (by simp [hm]), view_cons]

end Entry

namespace View

/-- A view as a file system has one: the root is a directory, and things stand in directories
only. -/
structure Rooted (v : View) : Prop where
  root : v [] = some .directory
  above : ∀ {h : Location} {n : Text}, v (h ++ [n]) ≠ none → v h = some .directory

variable {v : View}

/-- What something stands below, at any depth, is a directory. -/
theorem Rooted.above_of_prefix (hv : v.Rooted) {h l : Location} (hpre : h <+: l) (hne : h ≠ l)
    (hl : v l ≠ none) : v h = some .directory := by
  obtain ⟨rest, rfl⟩ := hpre
  induction rest using List.reverseRecOn with
  | nil => simp at hne
  | append_singleton rest n ih =>
    rw [← List.append_assoc] at hl
    have hdir := hv.above hl
    by_cases hrest : rest = []
    · simpa [hrest] using hdir
    · exact ih (by simpa using Ne.symm hrest) (by simp [hdir])

/-- The directory above a directory is one. -/
theorem Rooted.dropLast (hv : v.Rooted) {h : Location} (hh : v h = some .directory) :
    v h.dropLast = some .directory := by
  rcases h.eq_nil_or_concat with rfl | ⟨h, n, rfl⟩
  · exact hh
  · rw [List.concat_eq_append] at hh ⊢
    simpa using hv.above (n := n) (by simp [hh])

/-- The directory that the target of a link is taken from. -/
def linkStart (here : Location) (target : Text) : Location :=
  if target.head? = some '/' then [] else here

/-- The target of a link is taken from a directory. -/
theorem Rooted.at_linkStart (hv : v.Rooted) {here : Location} (hhere : v here = some .directory)
    (target : Text) : v (linkStart here target) = some .directory := by
  unfold linkStart
  split
  · exact hv.root
  · exact hhere

/-- Walks on from a directory, as in a tree; the answer is the location at the end. -/
def walk (v : View) (aim : Aim) (links : Nat) (here : Location) : List Step → Except Cause Location
  | [] => .ok here
  | .stay :: rest => walk v aim links here rest
  | .slash :: rest => walk v aim links here rest
  | .up :: rest => walk v aim links here.dropLast rest
  | .name n :: rest =>
    if aim = .newFile && rest = [.slash] then .error .isADirectory
    else if nameLimit < Text.byteSize n then .error .nameTooLong
    else
      match v (here ++ [n]) with
      | some .directory => walk v aim links (here ++ [n]) rest
      | some (.link target) =>
        if rest = [] && aim = .entry then .ok (here ++ [n])
        else
          match links with
          | 0 => .error .tooManyLinks
          | links + 1 => walk v aim links (linkStart here target) (steps target ++ rest)
      | some (.file _) => if rest = [] then .ok (here ++ [n]) else .error .notADirectory
      | none => if rest = [] then .ok (here ++ [n]) else .error .noSuchFile
termination_by steps => (links, steps.length)

/-- A name on the way to another one must lead to a directory. -/
theorem walk_inner {aim : Aim} {links : Nat} {here : Location} {m n : Text} {way : List Step} :
    v.walk aim links here (.name m :: (way ++ [.name n])) =
      if nameLimit < Text.byteSize m then .error .nameTooLong
      else
        match v (here ++ [m]) with
        | some .directory => v.walk aim links (here ++ [m]) (way ++ [.name n])
        | some (.link target) =>
          match links with
          | 0 => .error .tooManyLinks
          | links + 1 =>
            v.walk aim links (linkStart here target) (steps target ++ (way ++ [.name n]))
        | some (.file _) => .error .notADirectory
        | none => .error .noSuchFile := by
  have hslash : way ++ [Step.name n] ≠ [.slash] := fun h => by
    simpa using congrArg List.getLast? h
  rw [walk]
  simp [hslash]

/-- The last name of a way. -/
theorem walk_last {aim : Aim} {links : Nat} {here : Location} {n : Text} :
    v.walk aim links here [.name n] =
      if nameLimit < Text.byteSize n then .error .nameTooLong
      else
        match v (here ++ [n]) with
        | some (.link target) =>
          if aim = .entry then .ok (here ++ [n])
          else
            match links with
            | 0 => .error .tooManyLinks
            | links + 1 => v.walk aim links (linkStart here target) (steps target)
        | _ => .ok (here ++ [n]) := by
  rw [walk]
  cases v (here ++ [n]) with
  | none => simp
  | some s => cases s <;> simp [walk]

/-- What a successful walk did at a name: it went into a directory, it followed a link, or it ended
there. -/
theorem of_walk_name {aim : Aim} {links : Nat} {here l : Location} {n : Text} {way : List Step}
    (h : v.walk aim links here (.name n :: way) = .ok l) :
    (v (here ++ [n]) = some .directory ∧ v.walk aim links (here ++ [n]) way = .ok l) ∨
    (∃ target left, v (here ++ [n]) = some (.link target) ∧ links = left + 1 ∧
      (way = [] → aim ≠ .entry) ∧
      v.walk aim left (linkStart here target) (steps target ++ way) = .ok l) ∨
    (way = [] ∧ l = here ++ [n]) := by
  rw [walk] at h
  split at h
  · cases h
  split at h
  · cases h
  cases hsight : v (here ++ [n]) with
  | none =>
    rw [hsight] at h
    dsimp only at h
    split at h
    · next hend => exact .inr (.inr ⟨hend, (Except.ok.inj h).symm⟩)
    · cases h
  | some s =>
    rw [hsight] at h
    cases s with
    | directory => exact .inl ⟨rfl, h⟩
    | file =>
      dsimp only at h
      split at h
      · next hend => exact .inr (.inr ⟨hend, (Except.ok.inj h).symm⟩)
      · cases h
    | link target =>
      dsimp only at h
      split at h
      · next hend =>
        exact .inr (.inr ⟨by simp_all, (Except.ok.inj h).symm⟩)
      · next hend =>
        cases links with
        | zero => cases h
        | succ left => exact .inr (.inl ⟨target, left, rfl, rfl, by simp_all, h⟩)

/-- Where a path leads. -/
def reach (v : View) (aim : Aim) (p : Path) : Except Cause Location :=
  match refusal? p.text with
  | some cause => .error cause
  | none => v.walk aim linkLimit [] (steps p.text)

end View

namespace Tree

variable {t : Tree}

/-- What stands at each location of a tree. -/
def view (t : Tree) : View := t.root.view

theorem view_eq (t : Tree) (l : Location) : t.view l = (t.find? l).map Entry.sight := rfl

/-- A file is found where one is seen. -/
theorem find?_eq_file_iff {l : Location} {content : Content} :
    t.find? l = some (.file content) ↔ t.view l = some (.file content) := by
  rw [view_eq]
  cases t.find? l with
  | none => simp
  | some e => cases e <;> simp [Entry.sight]

/-- A tree shows a root, and things in directories only. -/
theorem rooted_view (t : Tree) : t.view.Rooted := ⟨rfl, Entry.view_eq_directory⟩

/-- What is placed below the root is placed in it. -/
theorem root_place {l : Location} (hl : l ≠ []) (e : Entry) :
    (t.place l e).root = t.root.place l e := by
  obtain ⟨n, l, rfl⟩ := List.exists_cons_of_ne_nil hl
  rfl

/-- What is taken out below the root is taken out of it. -/
theorem root_remove {l : Location} (hl : l ≠ []) : (t.remove l).root = t.root.remove l := by
  obtain ⟨n, l, rfl⟩ := List.exists_cons_of_ne_nil hl
  rw [remove, if_neg hl]
  unfold Entry.remove
  cases Table.getRow? n t.root.entries <;> rfl

/-- Putting something without entries where no directory stands changes one location. -/
theorem view_place {h : Location} {n : Text} {e : Entry} (hh : t.view h = some .directory)
    (hn : t.view (h ++ [n]) ≠ some .directory) (he : e.entries = []) :
    (t.place (h ++ [n]) e).view = Function.update t.view (h ++ [n]) (some e.sight) := by
  rw [view, root_place (by simp)]
  exact Entry.view_place hh hn he

/-- Taking out what is no directory changes one location. -/
theorem view_remove {l : Location} (hl : t.view l ≠ some .directory) :
    (t.remove l).view = Function.update t.view l none := by
  have hne : l ≠ [] := fun hnil => hl (hnil ▸ t.rooted_view.root)
  rw [view, root_remove hne]
  exact Entry.view_remove hne hl

/-! ## Walking by sight -/

/-- What a trail shows under a name is what the tree shows there. -/
theorem view_below {trail : Trail} (h : t.Leads trail) (n : Text) :
    t.view (trail.location ++ [n]) = (Table.getRow? n (t.entriesAt trail)).map Entry.sight := by
  have hfound := found_spotBelow h n
  rw [spotBelow] at hfound
  rw [view_eq, ← hfound]

/-- Walking needs no more than the view. -/
theorem location_walk {aim : Aim} {links : Nat} {trail : Trail} (way : List Step)
    (htrail : t.Leads trail) :
    (t.walk aim links trail way).map (·.location) = t.view.walk aim links trail.location way := by
  -- the cases of `walk` on trees are those of `walk` on views, with the trail as the location
  fun_induction walk t aim links trail way with
  | case1 => simp [View.walk, Except.map, spotAt]
  | case2 _ _ _ ih => rw [View.walk, ih htrail]
  | case3 _ _ _ ih => rw [View.walk, ih htrail]
  | case4 links trail _ ih =>
    rw [View.walk, ih htrail.tail]
    cases trail with
    | nil => rfl
    | cons => simp [Trail.location]
  | case5 _ _ _ _ hslash => simp [View.walk, hslash, Except.map]
  | case6 _ _ _ _ hslash hlong => simp [View.walk, hslash, hlong, Except.map]
  | case7 _ trail n _ hslash hlong entries hn ih =>
    have hlocation : Trail.location ((n, entries) :: trail) = trail.location ++ [n] := by
      simp [Trail.location]
    rw [ih ⟨hn, htrail⟩, View.walk, if_neg hslash, if_neg hlong, view_below htrail, hn,
      hlocation]
    rfl
  | case8 _ _ _ _ hslash hlong _ hn hentry =>
    rw [View.walk, if_neg hslash, if_neg hlong, view_below htrail, hn]
    simp only [Option.map_some, Entry.sight]
    rw [if_pos hentry]
    rfl
  | case9 _ _ _ hslash hlong _ hn hentry =>
    rw [View.walk, if_neg hslash, if_neg hlong, view_below htrail, hn]
    simp only [Option.map_some, Entry.sight]
    rw [if_neg hentry]
    rfl
  | case10 trail _ _ hslash hlong target hn hentry _ start ih =>
    rw [View.walk, if_neg hslash, if_neg hlong, view_below htrail, hn]
    simp only [Option.map_some, Entry.sight]
    rw [if_neg hentry]
    by_cases habs : target.head? = some '/'
    · have hstart : start = [] := if_pos habs
      rw [View.linkStart, if_pos habs, ih (hstart ▸ trivial), hstart]
      rfl
    · have hstart : start = trail := if_neg habs
      rw [View.linkStart, if_neg habs, ih (hstart ▸ htrail), hstart]
  | case11 _ _ _ hlong _ hn hslash =>
    rw [View.walk, if_neg hslash, if_neg hlong, view_below htrail, hn]
    rfl
  | case12 _ _ _ _ hslash hlong _ hn hrest =>
    rw [View.walk, if_neg hslash, if_neg hlong, view_below htrail, hn]
    simp [Entry.sight, hrest, Except.map]
  | case13 _ _ _ hlong hn hslash =>
    rw [View.walk, if_neg hslash, if_neg hlong, view_below htrail, hn]
    rfl
  | case14 _ _ _ _ hslash hlong hn hrest =>
    rw [View.walk, if_neg hslash, if_neg hlong, view_below htrail, hn]
    simp [hrest, Except.map]

/-- A path leads in a tree to where it leads in its view. -/
theorem location_reach (aim : Aim) (p : Path) :
    (t.reach aim p).map (·.location) = t.view.reach aim p := by
  have hroot : t.Leads [] := trivial
  unfold reach View.reach
  cases refusal? p.text with
  | some cause => rfl
  | none => exact location_walk _ hroot

/-- A path leads somewhere in a tree if it does in the view of the tree. -/
theorem reach_eq_ok_iff {aim : Aim} {p : Path} {s : Spot} :
    t.reach aim p = .ok s ↔ t.view.reach aim p = .ok s.location ∧ s.found = t.find? s.location := by
  rw [← location_reach]
  constructor
  · intro h
    exact ⟨by rw [h]; rfl, found_eq_of_reach h⟩
  · rintro ⟨hl, hfound⟩
    cases hs : t.reach aim p with
    | error cause => rw [hs] at hl; cases hl
    | ok s' =>
      rw [hs] at hl
      have hloc : s'.location = s.location := Except.ok.inj hl
      have hfound' := found_eq_of_reach hs
      rw [hloc, ← hfound] at hfound'
      obtain ⟨l, f⟩ := s
      obtain ⟨l', f'⟩ := s'
      simp_all

/-- A path leads nowhere in a tree if it does not in the view of the tree, for the same reason. -/
theorem reach_eq_error_iff {aim : Aim} {p : Path} {cause : Cause} :
    t.reach aim p = .error cause ↔ t.view.reach aim p = .error cause := by
  rw [← location_reach]
  cases t.reach aim p <;> simp [Except.map]

end Tree

end Scaffold
