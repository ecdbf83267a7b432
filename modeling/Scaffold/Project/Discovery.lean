import Scaffold.Config.Basic
import Scaffold.Error
import Scaffold.Ignore.RuleFile

/-!
# Discovery

The files of a project, in the order in which a reader meets them: a directory lists its entries by
name, and what is below an entry comes before the next one. Files that ignore rules describe are
passed over, and directories that they describe are not entered.
-/

namespace Scaffold.Project

open Text Ignore

/-- A file of the project. -/
structure Found where
  path : Path
  /-- The names that lead to the file from the root, joined by slashes. -/
  relative : Text
  deriving DecidableEq, Repr, Inhabited

/-- Directories that hold nothing of the project's own. -/
def foreignDirectories : List Text :=
  [".git".toList, "node_modules".toList, "vendor".toList, "dist".toList, "target".toList,
    ".idea".toList, ".vscode".toList]

/-- The patterns of what the configuration leaves out. -/
def leftOut (rules : ScanRules) : List Text :=
  foreignDirectories.flatMap (fun d => [d ++ "/**".toList, d]) ++ rules.extraIgnore

/-- Reads the pattern of something left out. -/
def readPattern (pattern : Text) : Except ScanError (Option Rule) :=
  let line := '!' :: pattern
  match readRule false line with
  | .ok rule => .ok rule
  | .error (e, shown) => .error (.invalidPattern line (ruleErrorMessage e shown))

/-- A directory on the way from the root to a file. -/
structure Step where
  path : Path
  location : Location
  entries : List (Text × Entry)

/-- What stays the same in all directories. -/
structure Search where
  tree : Tree
  root : Path
  rules : ScanRules
  /-- The rules of what is left out. -/
  excluded : List Rule

namespace Search

/-- Whether an entry is passed over: because it is left out, or else because the rules of the
directories above it say so. -/
def skips (w : Search) (dirs : List DirectoryRules) (path : Path) (isDirectory : Bool) : Bool :=
  verdict w.excluded (seenFrom w.root ⟨dropDot path.text⟩) isDirectory ≠ .silent ||
    directoryVerdict dirs path isDirectory = .ignored

/-- What an entry is, where links are followed. -/
inductive Kind where
  | directory (step : Step)
  | file
  | other

/-- A place of the project that the file system does not show. -/
def failed (w : Search) (path : Path) (cause : Cause) : ScanError :=
  .walk w.root (path.text ++ ": IO error for operation on ".toList ++ path.text ++ because cause)

/-- The kind of a link that is followed. It must lead somewhere, and not to a directory that it is
in. -/
def linkKind (w : Search) (above : List Step) (path : Path) : Except ScanError Kind :=
  match w.tree.reach .target path with
  | .error cause => .error (w.failed path cause)
  | .ok spot =>
    match spot.found with
    | none => .error (w.failed path .noSuchFile)
    | some (.directory entries) =>
      match above.find? (·.location = spot.location) with
      | none => .ok (.directory ⟨path, spot.location, entries⟩)
      | some step =>
        .error (.walk w.root ("File system loop found: ".toList ++ path.text ++
          " points to an ancestor ".toList ++ step.path.text))
    | some _ => .ok .file

/-- The kind of an entry. Links are followed on demand only. -/
def kind (w : Search) (above : List Step) (path : Path) (l : Location) :
    Entry → Except ScanError Kind
  | .directory entries => .ok (.directory ⟨path, l, entries⟩)
  | .file _ => .ok .file
  | .link _ => if w.rules.followsLinks then w.linkKind above path else .ok .other

/-- The files in and below a directory; `above` and `dirs` are the directories from there to the
root, with their rules. -/
def filesFrom (w : Search) : Nat → List Step → List DirectoryRules → Step →
    Except ScanError (List Path)
  | 0, _, _, _ => .ok []
  | fuel + 1, above, dirs, dir => do
    if let .error cause := w.tree.reach .target dir.path then throw (w.failed dir.path cause)
    let above := dir :: above
    let dirs := .read w.tree w.rules.usesGitignore dir.path :: dirs
    let found ← dir.entries.mapM fun (name, entry) => do
      let path := dir.path.join name
      match ← w.kind above path (dir.location ++ [name]) entry with
      | .directory step =>
        if w.skips dirs path true then return [] else w.filesFrom fuel above dirs step
      | .file => return if w.skips dirs path false then [] else [path]
      | .other => return []
    return found.flatten

/-- A bound for the number of directories on the way to a file: no two links on it lead to one
place, and between them it goes down. -/
def depthBound (w : Search) : Nat :=
  let size := w.tree.listing.length
  (size + 2) * (size + 2)

end Search

/-- What is wrong with the rules of the directories above a location. These rules do not count, but
they are read. -/
def faultsAbove (t : Tree) (l : Location) : List Fault :=
  (List.range l.length).flatMap fun n =>
    (DirectoryRules.read t true ⟨'/' :: Text.join ['/'] (l.take n)⟩).faults

def standardInput : Path := ⟨['-']⟩

/-- The files of the project at `root`. -/
def discover (t : Tree) (root : Path) (rules : ScanRules) : Except ScanError (List Found) := do
  match t.reach .target root with
  | .ok ⟨l, some (.directory entries)⟩ =>
    let excluded := (← (leftOut rules).mapM readPattern).filterMap id
    if let some e := setError? (excluded.map (·.glob)) then
      throw (.invalidPattern "<overrides>".toList e.message)
    if root.same standardInput then return []
    let faults := if rules.usesGitignore then faultsAbove t l else []
    if faults ≠ [] then throw (.walk root (Text.join ['\n'] (faults.map (·.message))))
    let w : Search := ⟨t, root, rules, excluded⟩
    return (← w.filesFrom w.depthBound [] [] ⟨root, l, entries⟩).map fun path =>
      ⟨path, Text.join ['/'] ((path.relativeTo? root).getD path).names⟩
  | _ => throw (.invalidRoot root)

/-- The files whose place in the project contains a mark. -/
def withMark (mark : Text) (files : List Found) : List Found :=
  files.filter fun f => occursIn mark f.relative

end Scaffold.Project
