import Scaffold.Disk.Walk

/-!
# File operations

What can be done with a file tree by paths. Operations fail for the reasons for which Linux fails.
-/

namespace Scaffold.Tree

/-- Goes to the directory that the last step of a path starts from. -/
def reachParent (t : Tree) (p : Path) : Except Cause Unit :=
  match refusal? p.text with
  | some cause => .error cause
  | none => do
    let way := (steps (Text.dropEndWhile (· = '/') p.text)).dropLast
    match (← t.walk .target linkLimit [] way).found with
    | some (.directory _) => .ok ()
    | some _ => .error .notADirectory
    | none => .error .noSuchFile

/-- What stands at the end of a path, links followed. -/
def lookup (t : Tree) (p : Path) : Except Cause Entry := do
  match (← t.reach .target p).found with
  | some e => .ok e
  | none => .error .noSuchFile

def isDirectory (t : Tree) (p : Path) : Bool :=
  match t.lookup p with
  | .ok e => e.isDirectory
  | .error _ => false

def isFile (t : Tree) (p : Path) : Bool :=
  match t.lookup p with
  | .ok (.file _) => true
  | _ => false

/-! ## Reading -/

/-- The content of a file. -/
def read (t : Tree) (p : Path) : Except Cause Content := do
  match ← t.lookup p with
  | .file content => .ok content
  | _ => .error .isADirectory

/-- The text of a file. -/
def readText (t : Tree) (p : Path) : Except Cause Text := do
  match ← t.read p with
  | .text s => .ok s
  | .binary _ => .error .invalidText

/-! ## Writing -/

/-- Writes a file; its directory must exist. -/
def write (t : Tree) (p : Path) (content : Content) : Except Cause Tree := do
  let spot ← t.reach .newFile p
  match spot.found with
  | some (.directory _) => .error .isADirectory
  | _ => .ok (t.place spot.location (.file content))

/-- Where something new is made: at the last name of a path, where nothing may stand yet. Slashes
behind the name do not count. -/
def reachNew (t : Tree) (p : Path) : Except Cause Location := do
  if let some cause := refusal? p.text then throw cause
  let name := Text.dropEndWhile (· = '/') p.text
  let spot ← t.reach .entry (if name = [] then p else ⟨name⟩)
  match spot.found with
  | some _ => .error .fileExists
  | none => .ok spot.location

def makeDirectory (t : Tree) (p : Path) : Except Cause Tree := do
  return t.place (← t.reachNew p) .emptyDirectory

/-- Puts a symbolic link where nothing stands yet. A slash behind its name asks for a directory. -/
def makeLink (t : Tree) (p : Path) (target : Text) : Except Cause Tree := do
  if p.text.contains '\x00' then throw .nulInPath
  if let some cause := refusal? target then throw cause
  let l ← t.reachNew p
  if p.text.getLast? = some '/' then throw .noSuchFile
  return t.place l (.link target)

/-- Makes a directory and those on the way to it, if they are missing; `fuel` bounds their number.
Directories that were made on the way stay, whatever happens then. -/
def makeDirectoriesFrom (fuel : Nat) (t : Tree) (p : Path) : Tree × Except Cause Unit :=
  match fuel with
  | 0 => (t, .error .noSuchFile)
  | fuel + 1 =>
    if p.text = [] then (t, .ok ())
    else
      let settle (t : Tree) (e : Cause) : Tree × Except Cause Unit :=
        (t, if t.isDirectory p then .ok () else .error e)
      match t.makeDirectory p with
      | .ok t => (t, .ok ())
      | .error .noSuchFile =>
        match p.parent? with
        | none => (t, .error .noSuchFile)
        | some above =>
          match makeDirectoriesFrom fuel t above with
          | (t, .error e) => (t, .error e)
          | (t, .ok ()) =>
            match t.makeDirectory p with
            | .ok t => (t, .ok ())
            | .error e => settle t e
      | .error e => settle t e

/-- Makes a directory and those on the way to it, if they are missing. -/
def makeDirectories (t : Tree) (p : Path) : Tree × Except Cause Unit :=
  makeDirectoriesFrom (p.text.length + 1) t p

/-- The last segment of a path, slashes at the end apart. -/
def lastSegment (p : Path) : Text :=
  ((Text.splitOn '/' (Text.dropEndWhile (· = '/') p.text)).getLast?).getD []

/-- Moves the file at `source` to `target`, in the place of a file that stands there. The directory
of the target is looked for before its last segment counts. -/
def moveFile (t : Tree) (source target : Path) : Except Cause Tree := do
  let spot ← t.reach .entry source
  t.reachParent target
  let last := lastSegment target
  if last = [] || last = ['.'] || last = ['.', '.'] then throw .busy
  match spot.found with
  | none => throw .noSuchFile
  | some e =>
    let place ← t.reach .entry ⟨Text.dropEndWhile (· = '/') target.text⟩
    if target.text.getLast? = some '/' then throw .notADirectory
    if let some (.directory _) := place.found then throw .isADirectory
    return (t.remove spot.location).place place.location e

/-- Removes the file or link at a path. -/
def removeFile (t : Tree) (p : Path) : Except Cause Tree := do
  let spot ← t.reach .entry p
  match spot.found with
  | none => throw .noSuchFile
  | some (.directory _) => throw .isADirectory
  | some _ => return t.remove spot.location

/-- Removes what stands at a path, with everything below it. -/
def removeAll (t : Tree) (p : Path) : Except Cause Tree := do
  let spot ← t.reach .entry p
  match spot.found with
  | none => throw .noSuchFile
  | some _ => return t.remove spot.location

end Scaffold.Tree
