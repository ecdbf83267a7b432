import Scaffold.Text.Basic

/-!
# Paths

A path is the text it was given as, read as a list of components. Slashes in a row count as one, a
dot counts only in front, and a slash at the end counts for nothing; two paths with the same
components name the same file.
-/

namespace Scaffold

/-- A path, as the text it was given as. -/
structure Path where
  /-- The text of the path. -/
  text : Text
  deriving DecidableEq, Repr, Inhabited

namespace Path

/-- One step of a path. -/
inductive Component where
  /-- The root of the file system. -/
  | root
  /-- The directory where the path starts: a dot in front. -/
  | here
  /-- The directory above. -/
  | up
  /-- A name in the directory reached so far. -/
  | name (n : Text)
  deriving DecidableEq, Repr

def isAbsolute (p : Path) : Bool := p.text.head? = some '/'

/-- What stands before the body of a path: the slash of an absolute path, or a dot in front. -/
def lead (p : Path) : Text :=
  match p.text with
  | '/' :: _ => ['/']
  | ['.'] => ['.']
  | '.' :: '/' :: _ => ['.']
  | _ => []

/-- The segments of the body, as they stand between slashes. -/
def segments (p : Path) : List Text := Text.splitOn '/' (p.text.drop p.lead.length)

/-- A segment that is no step: nothing between two slashes, or a dot. -/
def isIdle (segment : Text) : Bool := segment = [] || segment = ['.']

/-- The list without the idle segments at its end. -/
def dropIdleEnd (segs : List Text) : List Text := (segs.reverse.dropWhile isIdle).reverse

/-- The component that a segment stands for. -/
def Component.ofSegment (segment : Text) : Component :=
  if segment = ['.', '.'] then .up else .name segment

/-- The component that the lead of a path stands for. -/
def leadComponent? (p : Path) : Option Component :=
  match p.lead with
  | ['/'] => some .root
  | ['.'] => some .here
  | _ => none

def components (p : Path) : List Component :=
  p.leadComponent?.toList ++ (p.segments.filter (!isIdle ·)).map .ofSegment

/-- Whether two paths have the same steps. -/
def same (p q : Path) : Bool := p.components = q.components

/-- `q` seen from `p`: an absolute `q` stands for itself. -/
def join (p : Path) (q : Text) : Path :=
  if q.head? = some '/' then ⟨q⟩
  else if p.text = [] || p.text.getLast? = some '/' then ⟨p.text ++ q⟩
  else ⟨p.text ++ '/' :: q⟩

/-- The path without its last step; there is none above the root and above the empty path. -/
def parent? (p : Path) : Option Path :=
  match dropIdleEnd p.segments with
  | [] => if p.lead = ['.'] then some ⟨[]⟩ else none
  | segs => some ⟨p.lead ++ Text.join ['/'] (dropIdleEnd segs.dropLast)⟩

/-- The name of the last step, if that step is a name. -/
def fileName? (p : Path) : Option Text :=
  match p.components.getLast? with
  | some (.name n) => some n
  | _ => none

/-- The path with another name in the place of its last one. A path that ends with no name goes on
with the new one. -/
def withFileName (p : Path) (name : Text) : Path :=
  if p.fileName?.isSome then ((p.parent?).getD ⟨[]⟩).join name else p.join name

/-- What the body of a path leaves once `n` steps of it are taken. -/
def bodyFrom : Nat → List Text → List Text
  | _, [] => []
  | n, segment :: rest =>
    if isIdle segment then bodyFrom n rest
    else
      match n with
      | 0 => segment :: rest
      | n + 1 => bodyFrom n rest

/-- What follows `base` in `p`, if the steps of `p` begin with those of `base`. -/
def relativeTo? (p base : Path) : Option Path :=
  if base.components.isPrefixOf p.components then
    let taken := base.components.length
    if taken = 0 then some ⟨p.lead ++ Text.join ['/'] (dropIdleEnd p.segments)⟩
    else
      let inBody := taken - p.leadComponent?.toList.length
      some ⟨Text.join ['/'] (dropIdleEnd (bodyFrom inBody p.segments))⟩
  else none

/-- The text of a component. -/
def Component.text : Component → Text
  | .root => ['/']
  | .here => ['.']
  | .up => ['.', '.']
  | .name n => n

/-- The names among the steps, joined by slashes. -/
def names (p : Path) : List Text :=
  p.components.filterMap fun
    | .name n => some n
    | _ => none

end Path

end Scaffold
