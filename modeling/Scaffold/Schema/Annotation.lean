import Scaffold.Schema.Action
import Scaffold.Text.Letter

/-!
# Type annotations

A type is annotated as `Name`, `Name!`, `[Name]` or `[Name!]!`: brackets make a list, and the mark
`!` says that a value, or the list, must not be null.
-/

namespace Scaffold.Schema

open Text

/-- The element of a list annotation and what follows its bracket. -/
def listParts? (raw : Text) : Option (Text × Text) := do
  let rest ← after? ['['] raw
  cutAt? [']'] rest

/-- Reads an annotation. Nothing is refused: all brackets and marks go off the name, and a list ends
at the first closing bracket. -/
def readType (raw : Text) : TypeRef :=
  let raw := trim raw
  let typeName := trim (raw.filter fun c => c ≠ '!' && c ≠ '[' && c ≠ ']')
  match listParts? raw with
  | some (element, rest) =>
    ⟨typeName, endsWith ['!'] (trimEnd element), true, (trimStart rest).head? = some '!'⟩
  | none => ⟨typeName, endsWith ['!'] raw, false, false⟩

end Scaffold.Schema
