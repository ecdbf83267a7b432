import Scaffold.Service.Stub

/-!
# Regeneration of a service file

A service file is written anew from its actions without losing what people wrote into it. Functions
that answer with a response are matched with the actions by name: an implementation stays as it is,
or moves under a new signature if the old one no longer fits. Helpers and other declarations are
carried over, and functions that no action claims are left over.
-/

namespace Scaffold.Service

open Text

/-- The statement by which a function is known to answer with a response. -/
def responseReturn : Text := "return &response".toList

/-- Stands above an implementation whose signature was replaced. -/
def driftBanner : Text :=
  ("/**------------------------------------------------------------\n" ++
    "// !!! WARNING !!!\n" ++
    "// The code below was changed and needs review:\n" ++
    "// - The GraphQL query or mutation parameters changed; review this implementation.\n" ++
    "------------------------------------------------------------**/\n").toList

/-- What happened to the functions of a service file. -/
structure Tally where
  stubs : Nat
  kept : Nat
  drifted : Nat
  /-- Helpers that were carried over. -/
  carried : Nat
  deriving DecidableEq, Repr, Inhabited

def Tally.add (a b : Tally) : Tally :=
  ⟨a.stubs + b.stubs, a.kept + b.kept, a.drifted + b.drifted, a.carried + b.carried⟩

def Tally.zero : Tally := ⟨0, 0, 0, 0⟩

/-- A function as it was, with the comment above it. -/
def verbatim (f : Go.Function) : Text :=
  (f.leadingComment.elim [] (· ++ ['\n'])) ++ f.text ++ "\n\n".toList

/-- The comment above a function without an older banner. -/
def commentWithoutBanner (f : Go.Function) : Text :=
  match f.leadingComment with
  | none => []
  | some comment => trimStart ((after? (trimEnd driftBanner) comment).getD comment)

/-- An implementation under a new signature, with the banner above it. -/
def drifted (f : Go.Function) (signature : Text) : Text :=
  let comment := commentWithoutBanner f
  driftBanner ++ (if comment = [] then [] else comment ++ ['\n']) ++ signature ++
    trimEnd f.body ++ "\n\x7d\n\n".toList

/-- The functions of an old service file, by what becomes of them. -/
structure Sorted where
  /-- Functions that answer with a response; of several with one name, the last. -/
  previous : Table Text Go.Function
  /-- Functions that do not, but have the name of an action's function. -/
  clashing : List Go.Function
  /-- All other functions. -/
  carried : List Go.Function

/-- Sorts the functions of an old service file, given the names that actions claim. -/
def sortFunctions (claimed : List Text) (fs : List Go.Function) : Sorted :=
  let answers := fun f : Go.Function => occursIn responseReturn f.body
  let others := fs.filter (!answers ·)
  { previous := Table.ofList ((fs.filter answers).map fun f => (f.name, f))
    clashing := others.filter (claimed.contains ·.name)
    carried := others.filter (!claimed.contains ·.name) }

/-- What becomes of the function of one action. -/
inductive Fate where
  | stub (text : Text)
  | kept (text : Text)
  | drifted (text : Text)
  deriving DecidableEq, Repr

def Fate.text : Fate → Text
  | stub text | kept text | drifted text => text

/-- The fate of an action, given the old function of its name. -/
def fate (responses : Schema.Registry) (a : Action) (old : Option Go.Function) : Fate :=
  match old.filter (!isStub ·) with
  | some f =>
    if trim f.signature = trim (signature a) then .kept (verbatim f)
    else .drifted (drifted f (signature a))
  | none => .stub (stub a (Schema.resultOf responses a.responseType))

/-- Goes through the actions; each takes the old function of its name, so that a second action of
that name finds none. The old functions that are left come with the fates. -/
def claim (responses : Schema.Registry) : List Action → Table Text Go.Function →
    List Fate × Table Text Go.Function
  | [], previous => ([], previous)
  | a :: rest, previous =>
    let (fates, left) := claim responses rest (previous.erase (functionName a))
    (fate responses a (previous.get? (functionName a)) :: fates, left)

/-- Counts the fates of actions and the helpers carried over. -/
def tally (fates : List Fate) (carried : Nat) : Tally :=
  { stubs := fates.countP (· matches .stub _)
    kept := fates.countP (· matches .kept _)
    drifted := fates.countP (· matches .drifted _)
    carried }

/-- A regenerated service file. -/
structure Regenerated where
  content : Text
  /-- Old functions that no action claims, in the order of their names. -/
  leftovers : List Go.Function
  tally : Tally
  deriving DecidableEq, Repr, Inhabited

/-- The old file that a content stands for; a blank content is no file. -/
def oldFile (existing : Option Text) : Go.File :=
  match existing.filter (trim · ≠ []) with
  | some content => .parse content
  | none => default

/-- Writes the service file of a group over its old content. -/
def regenerate (s : Setting) (responses : Schema.Registry) (g : Group) (existing : Option Text) :
    Regenerated :=
  let old := oldFile existing
  let sorted := sortFunctions (g.actions.map functionName) old.functions
  let (fates, left) := claim responses g.actions sorted.previous
  { content :=
      old.header.elim (freshHeader s g) (· ++ "\n\n".toList) ++
        old.declarations.flatMap (· ++ "\n\n".toList) ++ sorted.carried.flatMap verbatim ++
        fates.flatMap Fate.text
    leftovers := (left.values ++ sorted.clashing).mergeSort fun f g => le f.name g.name
    tally := tally fates sorted.carried.length }

end Scaffold.Service
