import Scaffold.Disk.Path
import Scaffold.Ignore.Glob
import Scaffold.Text.Letter

/-!
# Ignore rules

A line of an ignore file is a rule: a glob with marks around it. `!` in front lets files in again,
a slash in front or inside binds the glob to the directory of the file, and a slash at the end
restricts it to directories. Of several rules that describe a path, the last one decides.
-/

namespace Scaffold.Ignore

open Text

/-- A rule of an ignore file. -/
structure Rule where
  glob : Glob
  /-- The rule lets in what it describes. -/
  allows : Bool
  /-- The rule is about directories alone. -/
  onlyDirectories : Bool
  deriving Repr

/-- What rules say about a path. -/
inductive Verdict where
  /-- No rule describes the path. -/
  | silent
  | ignored
  | allowed
  deriving DecidableEq, Repr

/-- The first verdict that is not silent. -/
def Verdict.orElse (v : Verdict) (w : Verdict) : Verdict :=
  match v with
  | .silent => w
  | v => v

/-- A line without white space at its end, unless a backslash protects the last blank. -/
def trimLine (line : Text) : Text := if endsWith ['\\', ' '] line then line else trimEnd line

/-- The mark for an allowing rule, the slash in front and what follows them. A backslash in front
takes away the meaning of a mark. -/
def splitMarks (line : Text) : Bool × Bool × Text :=
  match line with
  | '\\' :: '!' :: s => (false, false, '!' :: s)
  | '\\' :: '#' :: s => (false, false, '#' :: s)
  | '!' :: '/' :: s => (true, true, s)
  | '!' :: s => (true, false, s)
  | '/' :: s => (false, true, s)
  | s => (false, false, s)

/-- The glob of a rule: one without a slash can describe a path in any directory, and one that
describes all below a directory does not describe the directory. -/
def globText (bound : Bool) (s : Text) : Text :=
  let s :=
    if bound || s.contains '/' || s = "**".toList then s else "**/".toList ++ s
  if endsWith "/**".toList s then s ++ "/*".toList else s

/-- Reads a line of an ignore file. Comments and blank lines are no rules. The error comes with the
line that it is about. -/
def readRule (lenient : Bool) (line : Text) : Except (GlobError × Text) (Option Rule) :=
  if line.head? = some '#' then .ok none
  else
    match trimLine line with
    | [] => .ok none
    | line =>
      let (allows, bound, s) := splitMarks line
      let onlyDirectories := endsWith ['/'] s
      let s := if onlyDirectories then
          let s := s.dropLast
          if endsWith ['\\'] s then s.dropLast else s
        else s
      match Glob.parse lenient (globText bound s) with
      | .ok glob => .ok (some ⟨glob, allows, onlyDirectories⟩)
      | .error e => .error (e, line)

/-- What a list of rules says about a path. -/
def verdict (rules : List Rule) (path : Text) (isDirectory : Bool) : Verdict :=
  let bytes := bytesOf path
  let holds (r : Rule) : Bool := (isDirectory || !r.onlyDirectories) && r.glob.describes bytes
  match rules.reverse.find? holds with
  | none => .silent
  | some r => if r.allows then .allowed else .ignored

def ruleErrorMessage (e : GlobError) (line : Text) : Text :=
  "error parsing glob '".toList ++ line ++ "': ".toList ++ e.message

def dropDot (path : Text) : Text := (after? "./".toList path).getD path

/-- A path as the rules of a file in the directory `base` see it: without the directory, unless
that is the directory where paths start or the path is a bare name. -/
def seenFrom (base path : Path) : Text :=
  let base := dropDot base.text
  let path := dropDot path.text
  if Path.same ⟨base⟩ ⟨['.']⟩ || !path.contains '/' then path
  else
    match after? base path with
    | none => path
    | some rest => (after? ['/'] rest).getD rest

end Scaffold.Ignore
