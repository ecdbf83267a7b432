import Scaffold.Naming.Words
import Scaffold.Schema.Action

/-!
# Go types of schema types

The built-in scalars have Go types of their own, every other name is a type of the model package.
What may be null becomes a pointer, except for strings, which have an empty value to stand for it.
-/

namespace Scaffold.Naming

def modelPackage : Text := "model".toList

def modelType (name : Text) : Text := modelPackage ++ '.' :: recase name

/-- The Go types of the built-in scalars. -/
def scalars : List (Text × Text) :=
  [("Int".toList, "int".toList), ("Float".toList, "float64".toList),
   ("Boolean".toList, "bool".toList), ("String".toList, "string".toList),
   ("ID".toList, "string".toList), ("Upload".toList, "graphql.Upload".toList)]

/-- The Go type of a schema type, before pointers and slices. -/
def scalarType (typeName : Text) : Text := (scalars.lookup typeName).getD (modelType typeName)

/-- The Go type of a name is that of a scalar, or the type of a model. -/
theorem scalarType_cases (typeName : Text) :
    (typeName, scalarType typeName) ∈ scalars ∨ scalarType typeName = modelType typeName := by
  unfold scalarType
  cases hlookup : scalars.lookup typeName with
  | none => exact .inr rfl
  | some goType =>
    obtain ⟨front, rest, hrows, -⟩ := List.lookup_eq_some_iff.1 hlookup
    exact .inl (by simp [hrows])

def isStringLike (typeName : Text) : Bool := typeName = "String".toList || typeName = "ID".toList

/-- The Go type `token`, as a pointer if the value may be null and is no string. -/
def optionalType (token typeName : Text) (required : Bool) : Text :=
  if required || isStringLike typeName then token else '*' :: token

/-- A slice of `element`, as a pointer under the same rule. -/
def listType (element typeName : Text) (listRequired : Bool) : Text :=
  optionalType ("[]".toList ++ element) typeName listRequired

def parameterType (t : TypeRef) : Text :=
  let element := optionalType (scalarType t.typeName) t.typeName t.required
  if t.isList then listType element t.typeName t.isListRequired else element

def responseStruct (response : Text) : Text := modelType (Text.dropEndWhile (· == '!') response)

def responsePointer (response : Text) : Text := '*' :: responseStruct response

end Scaffold.Naming
