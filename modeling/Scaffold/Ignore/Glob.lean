import Scaffold.Text.Basic

/-!
# Globs

A glob describes paths: `?` is a character, `*` any characters without a slash, `**` any
directories, brackets hold a class and braces hold alternatives. Paths are matched byte by byte, in
the encoding UTF-8, so that `?` and a class stand for one byte. Matching keeps marks on all places
of a path that can be reached, so that its cost does not explode.
-/

namespace Scaffold.Ignore

open Text

/-- A part of a glob. -/
inductive Part where
  | literal (c : Char)
  /-- One byte other than a slash. -/
  | any
  /-- Bytes other than slashes. -/
  | star
  /-- Directories in front of everything else, or none. -/
  | leadingDirs
  /-- Directories between two parts, or a single slash. -/
  | innerDirs
  /-- Everything below a directory. -/
  | contents
  /-- A byte in one of the ranges, or in none of them. -/
  | range (negated : Bool) (ranges : List (Char × Char))
  /-- One of several globs. -/
  | oneOf (branches : List (List Part))
  deriving Repr

/-- A glob is the list of its parts. -/
abbrev Glob := List Part

/-- Why a text is no glob. -/
inductive GlobError where
  | unclosedClass
  | invalidRange (first last : Char)
  | unopenedGroup
  | unclosedGroup
  | danglingEscape
  deriving DecidableEq, Repr

/-- The wording of an error. -/
def GlobError.message : GlobError → Text
  | unclosedClass => "unclosed character class; missing ']'".toList
  | invalidRange first last =>
    "invalid range; '".toList ++ first :: "' > '".toList ++ last :: ['\'']
  | unopenedGroup =>
    "unopened alternate group; missing '\x7b' (maybe escape '\x7d' with '[\x7d]'?)".toList
  | unclosedGroup =>
    "unclosed alternate group; missing '\x7d' (maybe escape '\x7b' with '[\x7b]'?)".toList
  | danglingEscape => "dangling '\\'".toList

/-! ## Reading -/

/-- A class that is being read: the ranges so far, whether the next character is the first one, and
whether it ends a range. -/
structure ClassDraft where
  ranges : List (Char × Char)
  isFirst : Bool
  inRange : Bool

/-- Ends the last range with `c`. -/
def ClassDraft.close (d : ClassDraft) (c : Char) : Except GlobError ClassDraft :=
  match d.ranges.getLast? with
  | none => .ok d
  | some (first, _) =>
    if c < first then .error (.invalidRange first c)
    else .ok ⟨d.ranges.dropLast ++ [(first, c)], false, false⟩

/-- The ranges of a class up to its closing bracket, and what follows; nothing if the bracket is
missing. A bracket that comes first, and a dash that comes first or last, stand for themselves. -/
def classRanges? (d : ClassDraft) : Text → Except GlobError (Option (List (Char × Char) × Text))
  | [] => .ok none
  | c :: s =>
    if c = ']' && !d.isFirst then
      .ok (some (if d.inRange then d.ranges ++ [('-', '-')] else d.ranges, s))
    else if d.inRange then do
      classRanges? (← d.close c) s
    else if c = '-' && !d.isFirst then classRanges? ⟨d.ranges, false, true⟩ s
    else classRanges? ⟨d.ranges ++ [(c, c)], false, false⟩ s

/-- A class from behind its opening bracket, and what follows it. -/
def class? (s : Text) : Except GlobError (Option (Part × Text)) := do
  let (negated, s) := match s with
    | '!' :: s => (true, s)
    | '^' :: s => (true, s)
    | s => (false, s)
  return (← classRanges? ⟨[], true, false⟩ s).map fun (ranges, rest) =>
    (.range negated ranges, rest)

/-- A group of alternatives that is open: the parts before it, in reverse, and the branches that are
complete. -/
structure OpenGroup where
  before : List Part
  branches : List Glob

/-- A glob that is being read. -/
structure Draft where
  /-- The parts of the current branch, in reverse. -/
  current : List Part
  /-- The open groups, from the inside out. -/
  groups : List OpenGroup
  /-- The character before the cursor. -/
  before : Option Char
  /-- A bracket without its partner was found, so that brackets stand for themselves. -/
  plainBrackets : Bool

/-- Adds a part after the character `c`. -/
def Draft.add (d : Draft) (part : Part) (c : Char) : Draft :=
  { d with current := part :: d.current, before := some c }

/-- Two stars in a row: directories, where slashes or the ends of a branch stand on both sides, and
else no more than two stars. Gives the text behind the stars and the slash that belongs to them. -/
def Draft.addDoubleStar (d : Draft) (s : Text) : Draft × Text :=
  let plain := { d with current := .star :: .star :: d.current, before := some '*' }
  match d.current with
  | [] =>
    match s with
    | [] => (d.add .leadingDirs '*', [])
    | '/' :: rest => (d.add .leadingDirs '/', rest)
    | s => (plain, s)
  | last :: earlier =>
    let bounded := d.before = some '/' ||
      (d.groups.length ≠ 0 && (d.before = some ',' || d.before = some '{'))
    let put (part : Part) (c : Char) : Draft :=
      let part := match last with
        | .leadingDirs => .leadingDirs
        | .contents => .contents
        | _ => part
      { d with current := part :: earlier, before := some c }
    if !bounded then (plain, s)
    else
      match s with
      | [] => (put .contents '*', [])
      | c :: rest =>
        if c = '/' then (put .innerDirs '/', rest)
        else if (c = ',' || c = '\x7d') && d.groups.length ≠ 0 then (put .contents '*', s)
        else (plain, s)

/-- Reads the rest of a glob. `lenient` lets a bracket without its partner stand for itself. -/
def readFrom (lenient : Bool) (fuel : Nat) (d : Draft) (s : Text) : Except GlobError Glob :=
  match fuel, s with
  | 0, _ | _, [] => if d.groups.length = 0 then .ok d.current.reverse else .error .unclosedGroup
  | fuel + 1, c :: s =>
    match c with
    | '?' => readFrom lenient fuel (d.add .any c) s
    | '*' =>
      match s with
      | '*' :: s =>
        let (d, s) := d.addDoubleStar s
        readFrom lenient fuel d s
      | s => readFrom lenient fuel (d.add .star c) s
    | '[' =>
      if d.plainBrackets then readFrom lenient fuel (d.add (.literal c) c) s
      else
        match class? s with
        | .error e => .error e
        | .ok (some (part, rest)) => readFrom lenient fuel (d.add part ']') rest
        | .ok none =>
          if lenient then
            readFrom lenient fuel { d.add (.literal c) c with plainBrackets := true } s
          else .error .unclosedClass
    | '\x7b' =>
      readFrom lenient fuel
        { d with current := [], groups := ⟨d.current, []⟩ :: d.groups, before := some c } s
    | '\x7d' =>
      match d.groups with
      | [] => .error .unopenedGroup
      | g :: outer =>
        let group := Part.oneOf (g.branches ++ [d.current.reverse])
        readFrom lenient fuel
          { d with current := group :: g.before, groups := outer, before := some c } s
    | ',' =>
      match d.groups with
      | [] => readFrom lenient fuel (d.add (.literal c) c) s
      | g :: outer =>
        let g := { g with branches := g.branches ++ [d.current.reverse] }
        readFrom lenient fuel { d with current := [], groups := g :: outer, before := some c } s
    | '\\' =>
      match s with
      | [] => .error .danglingEscape
      | e :: s => readFrom lenient fuel (d.add (.literal e) e) s
    | c => readFrom lenient fuel (d.add (.literal c) c) s

def Glob.parse (lenient : Bool) (s : Text) : Except GlobError Glob :=
  readFrom lenient (s.length + 1) ⟨[], [], none, false⟩ s

/-! ## Matching -/

def slash : UInt8 := 47

/-- Marks on the places of a path: one before each of its bytes, and one at the end. -/
abbrev Marks := List Bool

def marksAtBeginning (path : List UInt8) : Marks := true :: path.map fun _ => false

def Marks.or (ms ns : Marks) : Marks := List.zipWith (· || ·) ms ns

/-- Goes along a path with a state: at each place, `mark` decides from the state and the old mark
whether the place is marked, and `next` gives the state behind the byte that follows. -/
@[specialize]
def sweep {σ : Type} (mark : σ → Bool → Bool) (next : σ → Bool → UInt8 → σ) (state : σ) :
    List UInt8 → Marks → Marks
  | b :: path, m :: ms => mark state m :: sweep mark next (next state m b) path ms
  | _, ms => ms.map (mark state)

/-- The places behind a byte of a kind that follows a marked place. -/
def behindByte (ofKind : UInt8 → Bool) : List UInt8 → Marks → Marks :=
  sweep (fun follows _ => follows) (fun _ m b => m && ofKind b) false

/-- The places that bytes other than slashes lead to from a marked place. -/
def alongName : List UInt8 → Marks → Marks :=
  sweep (fun carried m => m || carried) (fun carried m b => (m || carried) && b ≠ slash) false

/-- The marked places, and those behind a slash that has a marked place before it. -/
def behindDirs : List UInt8 → Marks → Marks :=
  sweep (fun (marked, behindSlash) m => m || marked && behindSlash)
    (fun (marked, _) m b => (marked || m, b == slash)) (false, false)

/-- The places behind a slash that is, or has before it, a slash at a marked place. -/
def behindInnerDirs : List UInt8 → Marks → Marks :=
  sweep (fun (entered, behindSlash) _ => entered && behindSlash)
    (fun (entered, _) m b => (entered || m && b == slash, b == slash)) (false, false)

/-- The places behind a slash at a marked place, however far. -/
def inContents : List UInt8 → Marks → Marks :=
  sweep (fun entered _ => entered) (fun entered m b => entered || m && b == slash) false

/-- Whether a byte is in the range between two characters. A character of several bytes stands for
each of its bytes, and of a range they share the ends. -/
def inRange (b : UInt8) (range : Char × Char) : Bool :=
  let firsts := String.utf8EncodeChar range.1
  let lasts := String.utf8EncodeChar range.2
  if range.1 = range.2 then firsts.contains b
  else
    firsts.dropLast.contains b || lasts.tail.contains b ||
      ((firsts.getLast?.getD 0) ≤ b && b ≤ lasts.headD 0)

mutual

/-- Whether a part describes nothing at all: an alternative between empty branches only. -/
def isVoid : Part → Bool
  | .oneOf branches => areVoid branches
  | _ => false

def areVoid : List (List Part) → Bool
  | [] => true
  | branch :: branches => isVoidGlob branch && areVoid branches

def isVoidGlob : List Part → Bool
  | [] => true
  | part :: parts => isVoid part && isVoidGlob parts

end

mutual

/-- The places that a part leads to from marked ones. -/
def marksBehindPart (path : List UInt8) (ms : Marks) : Part → Marks
  | .literal c =>
    (String.utf8EncodeChar c).foldl (fun ms b => behindByte (· == b) path ms) ms
  | .any => behindByte (· ≠ slash) path ms
  | .star => alongName path ms
  | .leadingDirs => behindDirs path ms
  | .innerDirs => behindInnerDirs path ms
  | .contents => inContents path ms
  | .range negated ranges => behindByte (fun b => ranges.any (inRange b) != negated) path ms
  | .oneOf branches => if areVoid branches then ms else marksBehindBranches path ms branches

/-- The places that one of several branches leads to; empty branches do not count. -/
def marksBehindBranches (path : List UInt8) (ms : Marks) : List (List Part) → Marks
  | [] => ms.map fun _ => false
  | branch :: branches =>
    let others := marksBehindBranches path ms branches
    if isVoidGlob branch then others else (marksBehindGlob path ms branch).or others

/-- The places that all parts lead to, one after the other. -/
def marksBehindGlob (path : List UInt8) (ms : Marks) : List Part → Marks
  | [] => ms
  | part :: parts =>
    if ms.contains true then marksBehindGlob path (marksBehindPart path ms part) parts else ms

end

/-- Whether a glob describes the path with these bytes. A glob of nothing but directories describes
every path. -/
def Glob.describes (g : Glob) (path : List UInt8) : Bool :=
  match g with
  | [.leadingDirs] => true
  | g => (marksBehindGlob path (marksAtBeginning path) g).getLast?.getD false

end Scaffold.Ignore
