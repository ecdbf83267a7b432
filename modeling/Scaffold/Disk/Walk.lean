import Scaffold.Disk.Cause
import Scaffold.Disk.Entry
import Scaffold.Disk.Path

/-!
# From paths to entries

The system takes a path step by step from the root, follows symbolic links on the way, and fails for
the reasons for which Linux fails. Where it gets to is a `Spot`. Main statement: what a spot shows
is what the tree holds at its location (`found_eq_of_reach`).
-/

namespace Scaffold.Tree

/-- A step on the way along a path. -/
inductive Step where
  /-- Stay in the directory. -/
  | stay
  | up
  | name (n : Text)
  /-- A slash at the end: what stands before it is a directory. -/
  | slash
  deriving DecidableEq, Repr

/-- The steps of a path as the system takes them. -/
def steps (path : Text) : List Step :=
  let segments := Text.splitOn '/' path
  (segments.filter (· ≠ [])).map (fun s =>
      if s = ['.'] then .stay else if s = ['.', '.'] then .up else .name s) ++
    if path ≠ [] && segments.getLast? = some [] then [.slash] else []

def linkLimit : Nat := 40

def nameLimit : Nat := 255

def pathLimit : Nat := 4095

/-- What a path is taken for. -/
inductive Aim where
  /-- The entry under its last name, which may be a link. -/
  | entry
  /-- What it leads to, when links are followed at the end too. -/
  | target
  /-- The file it leads to, which is made if it is missing. No file can be made where a slash
  follows the last name. -/
  | newFile
  deriving DecidableEq, Repr

/-- The directories that were entered on a way from the root, with their entries; the last one comes
first. -/
abbrev Trail := List (Text × List (Text × Entry))

def Trail.location (trail : Trail) : Location := (trail.map (·.1)).reverse

/-- The entries of the directory that a trail ends in. -/
def entriesAt (t : Tree) : Trail → List (Text × Entry)
  | [] => t.entries
  | (_, entries) :: _ => entries

@[simp]
theorem entriesAt_cons (t : Tree) (n : Text) (entries : List (Text × Entry)) (trail : Trail) :
    t.entriesAt ((n, entries) :: trail) = entries := rfl

/-- Where a path leads, and what stands there. -/
structure Spot where
  location : Location
  found : Option Entry

/-- The directory that a trail ends in. -/
def spotAt (t : Tree) (trail : Trail) : Spot :=
  ⟨trail.location, some (.directory (t.entriesAt trail))⟩

/-- The place of a name in the directory that a trail ends in. -/
def spotBelow (t : Tree) (trail : Trail) (n : Text) : Spot :=
  ⟨trail.location ++ [n], Table.getRow? n (t.entriesAt trail)⟩

/-- Walks on from a directory. Every step but the last one must lead to a directory; under the last
name nothing need stand, but no name may be too long. -/
def walk (t : Tree) (aim : Aim) (links : Nat) (trail : Trail) :
    List Step → Except Cause Spot
  | [] => .ok (t.spotAt trail)
  | .stay :: rest => walk t aim links trail rest
  | .slash :: rest => walk t aim links trail rest
  | .up :: rest => walk t aim links trail.tail rest
  | .name n :: rest =>
    if aim = .newFile && rest = [.slash] then .error .isADirectory
    else if nameLimit < Text.byteSize n then .error .nameTooLong
    else
      match Table.getRow? n (t.entriesAt trail) with
      | some (.directory entries) => walk t aim links ((n, entries) :: trail) rest
      | some (.link target) =>
        if rest = [] && aim = .entry then .ok (t.spotBelow trail n)
        else
          match links with
          | 0 => .error .tooManyLinks
          | links + 1 =>
            let start := if target.head? = some '/' then [] else trail
            walk t aim links start (steps target ++ rest)
      | some (.file _) => if rest = [] then .ok (t.spotBelow trail n) else .error .notADirectory
      | none => if rest = [] then .ok (t.spotBelow trail n) else .error .noSuchFile
termination_by steps => (links, steps.length)

/-- Why the system does not even look at a path: its text is too long, or no path at all. -/
def refusal? (path : Text) : Option Cause :=
  if path = [] then some .noSuchFile
  else if path.contains '\x00' then some .nulInPath
  else if pathLimit < Text.byteSize path then some .nameTooLong
  else none

/-- Where a path leads. -/
def reach (t : Tree) (aim : Aim) (p : Path) : Except Cause Spot :=
  match refusal? p.text with
  | some cause => .error cause
  | none => t.walk aim linkLimit [] (steps p.text)

/-! ## What a spot shows -/

/-- Each directory of a trail stands in the one before it. -/
def Leads (t : Tree) : Trail → Prop
  | [] => True
  | (n, entries) :: trail =>
    Table.getRow? n (t.entriesAt trail) = some (.directory entries) ∧ t.Leads trail

theorem Leads.tail {t : Tree} {trail : Trail} (h : t.Leads trail) : t.Leads trail.tail := by
  cases trail with
  | nil => exact h
  | cons _ _ => exact h.2

theorem found_spotAt {t : Tree} {trail : Trail} (h : t.Leads trail) :
    (t.spotAt trail).found = t.find? (t.spotAt trail).location := by
  unfold spotAt
  induction trail with
  | nil => rfl
  | cons step trail ih =>
    obtain ⟨n, entries⟩ := step
    have above : t.root.find? (Trail.location trail) = some (.directory (t.entriesAt trail)) :=
      (ih h.2).symm
    have here : Trail.location ((n, entries) :: trail) = Trail.location trail ++ [n] := by
      simp [Trail.location]
    simp [here, find?, Entry.find?_append, above, Entry.find?_cons, h.1]

theorem found_spotBelow {t : Tree} {trail : Trail} (h : t.Leads trail) (n : Text) :
    (t.spotBelow trail n).found = t.find? (t.spotBelow trail n).location := by
  have above : t.root.find? (Trail.location trail) = some (.directory (t.entriesAt trail)) :=
    (found_spotAt h).symm
  simp [spotBelow, find?, Entry.find?_append, above, Entry.find?_cons]

/-- What a walk ends at is what the tree holds there. -/
theorem found_eq_of_walk {t : Tree} {aim : Aim} {links : Nat} {trail : Trail} {way : List Step}
    {s : Spot} (htrail : t.Leads trail) (h : t.walk aim links trail way = .ok s) :
    s.found = t.find? s.location := by
  fun_induction walk t aim links trail way with
  | case1 => exact Except.ok.inj h ▸ found_spotAt htrail
  | case2 _ _ _ ih => exact ih htrail h
  | case3 _ _ _ ih => exact ih htrail h
  | case4 _ _ _ ih => exact ih htrail.tail h
  | case7 _ _ _ _ _ _ _ hn ih => exact ih ⟨hn, htrail⟩ h
  | case8 => exact Except.ok.inj h ▸ found_spotBelow htrail _
  | case10 _ _ _ _ _ target _ _ _ start ih =>
    refine ih ?_ h
    by_cases habs : target.head? = some '/' <;> simp [start, habs, htrail, Leads]
  | case11 => exact Except.ok.inj h ▸ found_spotBelow htrail _
  | case13 => exact Except.ok.inj h ▸ found_spotBelow htrail _
  | case5 | case6 | case9 | case12 | case14 => simp at h

/-- What a spot shows is what the tree holds at its location. -/
theorem found_eq_of_reach {t : Tree} {aim : Aim} {p : Path} {s : Spot}
    (h : t.reach aim p = .ok s) : s.found = t.find? s.location := by
  unfold reach at h
  split at h
  · simp at h
  · have root : t.Leads [] := trivial
    exact found_eq_of_walk root h

end Scaffold.Tree
