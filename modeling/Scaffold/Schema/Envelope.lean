import Scaffold.Error
import Scaffold.Schema.Annotation
import Scaffold.Schema.TypeBlock
import Scaffold.Table

/-!
# Response envelopes

Every response type is an envelope with the fields `result`, `success` and `elapsedTime`. A registry
remembers for each response the type of its `result` field; a type without that field is no
envelope and is passed over, and an envelope that breaks the rules is refused.
-/

namespace Scaffold.Schema

open Text

/-- The result types of the responses, under the names of the responses. -/
abbrev Registry := Table Text TypeRef

/-- A type with a body that ends at the first closing brace. -/
structure TypeBody where
  name : Text
  body : Text
  deriving DecidableEq, Repr

/-- A type header with the body that follows it. -/
def typeBody : Pattern TypeBody := fun before s => do
  let (name, inside) ← typeHeader before s
  let rest ← after? ['}'] (inside.dropWhile (· ≠ '}'))
  some (⟨name, inside.takeWhile (· ≠ '}')⟩, rest)

/-- The text behind a field name that stands on its own and the colon after it. -/
def fieldStart? (field : Text) (before : Option Char) (s : Text) : Option Text := do
  guard (!before.any isWord)
  let rest ← after? field s
  after? [':'] (rest.dropWhile isBlank)

/-- A field name with its colon. -/
def fieldName (field : Text) : Pattern Unit := fun before s =>
  (fieldStart? field before s).map fun rest => ((), rest)

/-- Whether a character can be part of a result type: the type ends with its line, at a comment and
at a comma. -/
def isResultChar (c : Char) : Bool := c ≠ '\n' && c ≠ '#' && c ≠ ','

/-- The type of a result field, from the text behind the colon. White space in front does not
belong to it, unless nothing else stands there: then the last of it does, if it is on a line. -/
def resultText? (s : Text) : Option (Text × Text) :=
  let rest := s.dropWhile isBlank
  match rest.takeWhile isResultChar with
  | [] =>
    match (s.takeWhile isBlank).reverse.dropWhile (!isResultChar ·) with
    | [] => none
    | c :: _ => some ([c], rest)
  | raw => some (raw, rest.dropWhile isResultChar)

/-- The `result` field of an envelope; the value is the text of its type. -/
def resultField : Pattern Text := fun before s => do
  resultText? (← fieldStart? "result".toList before s)

def scalarResults : List Text := ["Int".toList, "Boolean".toList, "String".toList]

/-- Refuses an envelope whose result has a type of another name, or that lacks a field. -/
def checkEnvelope (path : Path) (t : TypeBody) (result : TypeRef) : Except SchemaError Unit := do
  unless scalarResults.contains result.typeName || occursIn "Result".toList result.typeName do
    throw (.resultType path t.name result.typeName)
  for field in ["success".toList, "elapsedTime".toList] do
    unless (Text.find? (fieldName field) t.body).isSome do
      throw (.missingField path t.name field)

/-- The row that a type puts into the registry; a type without a result has none. -/
def envelope? (path : Path) (t : TypeBody) : Except SchemaError (Option (Text × TypeRef)) :=
  match Text.find? resultField t.body with
  | none => .ok none
  | some raw => do
    checkEnvelope path t (readType raw)
    return some (t.name, readType raw)

/-- Registers types one after the other and counts them, up to the first that is refused. What was
registered before stays. -/
def registerAll (path : Path) : List TypeBody → Registry → Nat → Registry × Except SchemaError Nat
  | [], registry, count => (registry, .ok count)
  | t :: ts, registry, count =>
    match envelope? path t with
    | .error e => (registry, .error e)
    | .ok none => registerAll path ts registry count
    | .ok (some (name, result)) => registerAll path ts (registry.put name result) (count + 1)

/-- Registers the envelopes of a file; the answer is their number, or the first rule broken. -/
def register (path : Path) (text : Text) (registry : Registry) :
    Registry × Except SchemaError Nat :=
  registerAll path (findAll typeBody (stripDocs text)) registry 0

/-- The result type of a response; of a response that nothing is known of, the unknown type. -/
def resultOf (registry : Registry) (response : Text) : TypeRef :=
  (registry.get? response).getD .unknown

end Scaffold.Schema
