import Scaffold.Ignore.Glob

/-!
# Expressions of globs

Some globs are looked for by comparing texts, and some by trying a last name; every other one is
compiled to a regular expression for whole paths. An expression that is nested too deep cannot be
compiled, and then none of the globs that stand in one file with it can. This module holds the text
of an expression (`Glob.expression`), how deep it is nested (`Glob.levels`), and the error that the
globs of a file end with (`setError?`).
-/

namespace Scaffold.Ignore

open Text

/-! ## The text of an expression -/

/-- The characters that mean something in an expression. -/
def markCharacters : Text := "\\.+*?()|[]\x7b\x7d^$#&-~".toList

/-- A byte of a literal: a mark behind a backslash, another character of ASCII as it is, and any
other byte as its number. -/
def byteText (b : UInt8) : Text :=
  if b < 128 then
    let c := Char.ofNat b.toNat
    if markCharacters.contains c then ['\\', c] else [c]
  else ['\\', 'x', Nat.digitChar (b.toNat / 16), Nat.digitChar (b.toNat % 16)]

def characterText (c : Char) : Text := (String.utf8EncodeChar c).flatMap byteText

def rangeText (range : Char × Char) : Text :=
  if range.1 = range.2 then characterText range.1
  else characterText range.1 ++ '-' :: characterText range.2

mutual

/-- The expression of a part. -/
def partText : Part → Text
  | .literal c => characterText c
  | .any => "[^/]".toList
  | .star => "[^/]*".toList
  | .leadingDirs => "(?:/?|.*/)".toList
  | .innerDirs => "(?:/|/.*/)".toList
  | .contents => "/.*".toList
  | .range negated ranges =>
    '[' :: (if negated then ['^'] else []) ++ ranges.flatMap rangeText ++ [']']
  | .oneOf branches =>
    if areVoid branches then []
    else "(?:".toList ++ Text.join ['|'] (branchTexts branches) ++ [')']

/-- The expressions of the branches that describe something. -/
def branchTexts : List (List Part) → List Text
  | [] => []
  | branch :: branches =>
    if isVoidGlob branch then branchTexts branches else partsText branch :: branchTexts branches

def partsText : List Part → Text
  | [] => []
  | part :: parts => partText part ++ partsText parts

end

def Glob.expression (g : Glob) : Text :=
  "(?-u)^".toList ++ (if g matches [.leadingDirs] then ".*".toList else partsText g) ++ ['$']

/-! ## Nesting -/

/-- How many items a range is in its class: the bytes before it, the range, and the bytes behind. -/
def rangeItems (range : Char × Char) : Nat :=
  if range.1 = range.2 then range.1.utf8Size else range.1.utf8Size + range.2.utf8Size - 1

/-- How many items a part is in a row of parts. -/
def partItems : Part → Nat
  | .literal c => c.utf8Size
  | .contents => 2
  | part => if isVoid part then 0 else 1

/-- Several things side by side are a level of their own. -/
def rowLevel (items : Nat) : Nat := if 2 ≤ items then 1 else 0

mutual

/-- How many levels a part has: groups, alternatives, rows, repetitions and classes count. -/
def partLevels : Part → Nat
  | .literal _ => 0
  | .any => 1
  | .star => 2
  | .leadingDirs => 4
  | .innerDirs => 4
  | .contents => 1
  | .range _ ranges => 1 + rowLevel (ranges.map rangeItems).sum
  | .oneOf branches =>
    if areVoid branches then 0
    else 1 + rowLevel (branches.countP (!isVoidGlob ·)) + branchLevels branches

/-- The levels of the deepest branch. -/
def branchLevels : List (List Part) → Nat
  | [] => 0
  | branch :: branches =>
    max (rowLevel (branch.map partItems).sum + deepestPart branch) (branchLevels branches)

/-- The levels of the deepest part. -/
def deepestPart : List Part → Nat
  | [] => 0
  | part :: parts => max (partLevels part) (deepestPart parts)

end

def Glob.levels (g : Glob) : Nat := 1 + if g matches [.leadingDirs] then 1 else deepestPart g

def levelLimit : Nat := 250

def Glob.isTooDeep (g : Glob) : Bool := levelLimit < g.levels

/-! ## Compiling -/

/-- Whether a part stands for one character, and `p` holds of it. -/
def Part.isLiteral (p : Char → Bool) : Part → Bool
  | .literal c => p c
  | _ => false

/-- Whether a part is seen to describe nothing with a slash in it. Groups are not looked into. -/
def Part.staysInName : Part → Bool
  | .literal c => c ≠ '/'
  | .any => true
  | .star => true
  | .range negated ranges => ranges.any (inRange slash) == negated
  | _ => false

/-- Whether a glob is none of those that are compiled to be tried on whole paths: paths need only be
compared with texts, as a whole or in part, or their last names need only be tried. -/
def Glob.isPlain (g : Glob) : Bool :=
  match g with
  | .leadingDirs :: rest =>
    !rest.isEmpty && (rest.all (·.isLiteral fun _ => true) || rest.all (·.staysInName))
  | g =>
    let front := if g.getLast? matches some .contents then g.dropLast else g
    !g.isEmpty && front.all (·.isLiteral fun _ => true)

/-- Whether a glob ends with an extension, literally. Such a glob is compiled alone. -/
def Glob.endsWithExtension (g : Glob) : Bool :=
  match g.reverse.dropWhile (·.isLiteral fun c => c ≠ '.' && c ≠ '/') with
  | .literal '.' :: _ => true
  | _ => false

/-- Why globs cannot be compiled. -/
inductive SetError where
  /-- A glob that is compiled alone has this expression. -/
  | alone (expression : Text)
  /-- The glob at this place among those that are compiled together. -/
  | together (place : Nat)
  deriving DecidableEq, Repr

/-- The wording that names an expression by its place among those compiled with it. -/
def placeMessage (place : Nat) : Text := "error parsing pattern ".toList ++ digits 1 place

/-- The wording of an error. -/
def SetError.message : SetError → Text
  | alone expression =>
    "error parsing glob '".toList ++ expression ++ "': ".toList ++ placeMessage 0
  | together place => placeMessage place

/-- The error that compiling the globs of a file ends with, if it does. -/
def setError? (globs : List Glob) : Option SetError :=
  let (alone, together) := (globs.filter (!·.isPlain)).partition (·.endsWithExtension)
  match alone.find? (·.isTooDeep) with
  | some g => some (.alone g.expression)
  | none => (together.findIdx? (·.isTooDeep)).map .together

end Scaffold.Ignore
