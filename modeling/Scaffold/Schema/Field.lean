import Scaffold.Error
import Scaffold.Schema.Annotation
import Scaffold.Schema.FlatText

/-!
# Fields of a type block

A field reads `name(arguments):Response!` or `name:Response!` in flat text. Fields with arguments
are found first; then each of them, and every other group in parentheses, gives way to a single
mark, and the fields without arguments are found in what is left.
-/

namespace Scaffold.Schema

open Text

/-- The inside of the group in parentheses at the start of a text, which holds no other group, and
what follows it. -/
def group? (s : Text) : Option (Text × Text) := do
  let inside ← after? ['('] s
  let rest ← after? [')'] (inside.dropWhile fun c => c ≠ '(' && c ≠ ')')
  some (inside.takeWhile fun c => c ≠ '(' && c ≠ ')', rest)

/-- A response: a word, with the mark that it must not be null if there is one. -/
def response? (s : Text) : Option (Text × Text) := do
  let (name, rest) ← word? s
  match after? ['!'] rest with
  | some rest => some (name ++ ['!'], rest)
  | none => some (name, rest)

/-- A field as it stands in flat text. -/
structure RawField where
  name : Text
  /-- The inside of the parentheses; empty if there are none. -/
  arguments : Text
  /-- The response with its mark. -/
  response : Text
  deriving DecidableEq, Repr

/-- A directive with arguments of its own; the value is the name of the directive. -/
def directive : Pattern Text := fun _ s => do
  let (name, rest) ← word? (← after? ['@'] s)
  let (_, rest) ← group? rest
  some (name, rest)

/-- A field with arguments. -/
def fieldWithArguments : Pattern RawField := fun _ s => do
  let (name, rest) ← word? s
  let (arguments, rest) ← group? rest
  let (response, rest) ← response? (← after? [':'] rest)
  some (⟨name, arguments, response⟩, rest)

/-- A field without arguments. -/
def plainField : Pattern RawField := fun _ s => do
  let (name, rest) ← word? s
  let (response, rest) ← response? (← after? [':'] rest)
  some (⟨name, [], response⟩, rest)

/-- Puts a closing parenthesis in the place of each group in parentheses, with all groups inside it,
`depth` groups deep. A group that is not closed runs to the end of the text. -/
def stripGroups : (depth : Nat) → Text → Text
  | _, [] => []
  | depth, c :: s =>
    if c = '(' then stripGroups (depth + 1) s
    else
      match depth with
      | 0 => c :: stripGroups 0 s
      | 1 => if c = ')' then c :: stripGroups 0 s else stripGroups 1 s
      | depth + 2 => stripGroups (if c = ')' then depth + 1 else depth + 2) s

/-- The fields of a flat text: those with arguments, then those without. -/
def fields (flat : Text) : List RawField :=
  let flat := replaceAll directive (fun name => '@' :: name ++ [separator]) flat
  let residue := stripGroups 0 (replaceAll fieldWithArguments (fun _ => [')']) flat)
  findAll fieldWithArguments flat ++ findAll plainField residue

/-- Where a schema text comes from: what its actions and errors say about their origin. -/
structure Origin where
  path : Path
  kind : Kind
  owner : ModuleRef
  deriving DecidableEq, Repr, Inhabited

/-- An argument from its item `name:Type`; an item without a colon is none. -/
def argument? (item : Text) : Option Argument :=
  (cutAt? [':'] item).map fun (name, raw) => { readType raw with name := name }

/-- Refuses an argument `input` whose type is no input type. -/
def checkArgument (path : Path) (action : Text) (arg : Argument) : Except SchemaError Argument :=
  if arg.name = "input".toList && !occursIn "Input".toList arg.typeName then
    .error (.inputType path action arg.typeName)
  else .ok arg

/-- The items between parentheses in the order of their texts, so that moving an argument in the
schema changes no generated code. -/
def items (inside : Text) : List Text := (parts separator inside).mergeSort le

def readArguments (path : Path) (action inside : Text) : Except SchemaError (List Argument) :=
  ((items inside).filterMap argument?).mapM (checkArgument path action)

/-- The name of a response type, which must not be null. -/
def responseName (path : Path) (action token : Text) : Except SchemaError Text :=
  if token.getLast? = some '!' && token.dropLast ≠ [] then .ok token.dropLast
  else .error (.nullableResponse path action token)

/-- The action that a field declares. -/
def RawField.toAction (origin : Origin) (field : RawField) : Except SchemaError Action := do
  let args ← readArguments origin.path field.name field.arguments
  let response ← responseName origin.path field.name field.response
  return ⟨field.name, args, response, origin.kind, origin.owner⟩

/-- The actions of a flat text, or the first field that breaks a rule. -/
def actions (origin : Origin) (flat : Text) : Except SchemaError (List Action) :=
  (fields flat).mapM (·.toAction origin)

end Scaffold.Schema
