import Scaffold.Disk.Tree
import Scaffold.Ignore.Expression
import Scaffold.Ignore.Rule

/-!
# Ignore files

A directory can hold three files of ignore rules: `.ignore`, `.gitignore` and `.git/info/exclude`.
Their rules are about the paths in that directory. Of the files of one name, the one in the
innermost directory that says something decides, and what `.ignore` says goes before the others.
What cannot be read in a file is passed over, and kept as a `Fault`.
-/

namespace Scaffold.Ignore

open Text

/-- What is wrong with a file that rules come from. -/
inductive Fault where
  /-- A line is no rule. -/
  | badLine (file : Path) (number : Nat) (error : GlobError) (line : Text)
  /-- From a line on, the file is no text. -/
  | cutShort (file : Path) (number : Nat)
  /-- The rules of a file cannot be compiled. -/
  | uncompiled (error : SetError)
  /-- A file that leads to another place cannot be read. -/
  | unreadable (file : Path) (cause : Cause)
  deriving DecidableEq, Repr

/-- A line of a file, as a message begins with it. -/
def lineMark (file : Path) (number : Nat) : Text :=
  file.text ++ ": line ".toList ++ digits 1 number ++ ": ".toList

/-- The wording of a fault. -/
def Fault.message : Fault → Text
  | badLine file number error line => lineMark file number ++ ruleErrorMessage error line
  | cutShort file number => lineMark file number ++ Cause.message .invalidText
  | uncompiled error => error.message
  | unreadable file cause => file.text ++ ": ".toList ++ cause.message

/-! ## Files of rules -/

/-- The lines of a file, up to the first one that is no text. -/
def contentLines : Content → List Text
  | .text s => lines s
  | .binary bytes =>
    let all := (bytes.splitOn 10).map ofUtf8?
    let last := all.getLast?.join.toList.filter (· ≠ [])
    let whole := (all.dropLast.takeWhile Option.isSome).filterMap id
    whole.map dropReturn ++ if whole.length + 1 = all.length then last else []

/-- Lines without byte order marks in front of the first one. -/
def dropMark : List Text → List Text
  | [] => []
  | line :: rest => line.dropWhile (· = '\uFEFF') :: rest

/-- The rules of a file, and what is wrong with it. -/
structure RuleFile where
  rules : List Rule
  faults : List Fault

def RuleFile.empty : RuleFile := ⟨[], []⟩

/-- What the rules of a file in the directory `base` say about a path. -/
def RuleFile.verdict (f : RuleFile) (base path : Path) (isDirectory : Bool) : Verdict :=
  if f.rules.isEmpty then .silent else Ignore.verdict f.rules (seenFrom base path) isDirectory

/-- The rules in the content of the file at `p`. Lines that cannot be read are passed over; where
the rules cannot be compiled, there are none. That the end of the file is no text is a fault only
beside another. -/
def RuleFile.ofContent (p : Path) (content : Content) : RuleFile :=
  let read := (dropMark (contentLines content)).map (readRule true)
  let rules := read.filterMap fun
    | .ok rule => rule
    | .error _ => none
  let badLines := read.zipIdx.filterMap fun
    | (.error (e, line), i) => some (.badLine p (i + 1) e line)
    | _ => none
  let faults := match badLines, content with
    | _ :: _, .binary _ => badLines ++ [.cutShort p (read.length + 1)]
    | _, _ => badLines
  match setError? (rules.map (·.glob)) with
  | none => ⟨rules, faults⟩
  | some e => ⟨[], faults ++ [.uncompiled e]⟩

/-- The rules of the file at `p`; a file that cannot be read has none. -/
def RuleFile.read (t : Tree) (p : Path) : RuleFile :=
  match t.read p with
  | .ok content => .ofContent p content
  | .error _ => .empty

/-! ## Git's folder -/

/-- The first line of a file, if there is one. -/
def firstLine? (content : Content) : Except Cause (Option Text) :=
  match content, contentLines content with
  | _, line :: _ => .ok (some line)
  | .text _, [] => .ok none
  | .binary _, [] => .error .invalidText

def linkedFolder? (content : Content) : Except Cause (Option Path) := do
  return ((← firstLine? content).bind (after? "gitdir: ".toList ·)).map Path.mk

/-- The file in a linked folder that names the folder that it shares with others. -/
def commonFile (folder : Path) : Path := folder.join "commondir".toList

/-- The folder that a linked folder shares with others, as a line names it. -/
def commonFolder (folder : Path) (line : Text) : Path :=
  if line.head? = some '.' then folder.join line else ⟨line⟩

/-- Where Git keeps what belongs to a directory: in its folder `.git`, or in a folder that a file of
that name leads to. There may be none, for these faults. -/
def gitFolder (t : Tree) (dir : Path) : Except (List Fault) Path :=
  let own := dir.join ".git".toList
  match t.lookup own with
  | .ok (.file content) =>
    match linkedFolder? content with
    | .error cause => .error [.unreadable own cause]
    | .ok none => .error []
    | .ok (some folder) =>
      match t.read (commonFile folder) with
      | .error .isADirectory => .error [.unreadable (commonFile folder) .isADirectory]
      | .error _ => .error []
      | .ok content =>
        match firstLine? content with
        | .error cause => .error [.unreadable (commonFile folder) cause]
        | .ok none => .error []
        | .ok (some line) => .ok (commonFolder folder line)
  | _ => .ok own

/-- The rules that Git keeps apart from the files of a directory. -/
def excludeRules (t : Tree) (dir : Path) : RuleFile :=
  match gitFolder t dir with
  | .ok folder => .read t (folder.join "info/exclude".toList)
  | .error faults => ⟨[], faults⟩

/-! ## Directories -/

/-- The rules that a directory brings with it. -/
structure DirectoryRules where
  /-- The path of the directory. -/
  base : Path
  plain : RuleFile
  git : RuleFile
  exclude : RuleFile

/-- The rules of a directory. Git's files count on demand. -/
def DirectoryRules.read (t : Tree) (usesGit : Bool) (dir : Path) : DirectoryRules :=
  { base := dir
    plain := .read t (dir.join ".ignore".toList)
    git := if usesGit then .read t (dir.join ".gitignore".toList) else .empty
    exclude := if usesGit then excludeRules t dir else .empty }

def DirectoryRules.faults (d : DirectoryRules) : List Fault :=
  d.plain.faults ++ d.git.faults ++ d.exclude.faults

/-- What the rules of one kind say about a path; the innermost directory comes first. -/
def firstVerdict (kind : DirectoryRules → RuleFile) (path : Path) (isDirectory : Bool) :
    List DirectoryRules → Verdict
  | [] => .silent
  | d :: dirs =>
    match (kind d).verdict d.base path isDirectory with
    | .silent => firstVerdict kind path isDirectory dirs
    | v => v

/-- What the rules of directories say about a path. -/
def directoryVerdict (dirs : List DirectoryRules) (path : Path) (isDirectory : Bool) : Verdict :=
  let path : Path := ⟨dropDot path.text⟩
  ((firstVerdict (·.plain) path isDirectory dirs).orElse
    (firstVerdict (·.git) path isDirectory dirs)).orElse
      (firstVerdict (·.exclude) path isDirectory dirs)

end Scaffold.Ignore
