import Scaffold.Disk.Path

/-!
# Actions

The vocabulary of an analysed schema: an *action* is a field of one of the three root types, it
belongs to a module of the project, and it answers with a *response* whose `result` field has a
type of its own.
-/

namespace Scaffold

/-- The root type that an action is a field of. -/
inductive Kind where
  | query
  | mutation
  | subscription
  deriving DecidableEq, Repr, Inhabited

namespace Kind

/-- Every kind, in the order in which kinds are listed everywhere. -/
def all : List Kind := [.query, .mutation, .subscription]

/-- The place of a kind in that order. -/
def rank : Kind → Nat
  | query => 0
  | mutation => 1
  | subscription => 2

/-- The name of a kind in file names. -/
def name : Kind → Text
  | query => "query".toList
  | mutation => "mutation".toList
  | subscription => "subscription".toList

/-- The name of the root type in a schema. -/
def typeName : Kind → Text
  | query => "Query".toList
  | mutation => "Mutation".toList
  | subscription => "Subscription".toList

def fileMark (kind : Kind) : Text := kind.name ++ ".graphqls".toList

end Kind

/-- A module of the project: a package inside a project directory. -/
structure ModuleRef where
  project : Text
  package : Text
  deriving DecidableEq, Repr, Inhabited

/-- A module as it is shown: project, slash, package. -/
def ModuleRef.display (m : ModuleRef) : Text := m.project ++ '/' :: m.package

/-- A type as a schema annotates it, with all marks taken off the name. -/
structure TypeRef where
  /-- The bare name of the type. -/
  typeName : Text
  /-- The value, or the element of a list, must not be null. -/
  required : Bool
  /-- The type is a list. -/
  isList : Bool
  /-- The list itself must not be null. -/
  isListRequired : Bool
  deriving DecidableEq, Repr, Inhabited

/-- The type that stands for an unknown one: no name and no marks. -/
def TypeRef.unknown : TypeRef := ⟨[], false, false, false⟩

structure Argument extends TypeRef where
  name : Text
  deriving DecidableEq, Repr, Inhabited

/-- A field of a root type. -/
structure Action where
  name : Text
  args : List Argument
  /-- The name of the response type, without the mark that it must not be null. -/
  responseType : Text
  kind : Kind
  owner : ModuleRef
  deriving DecidableEq, Repr, Inhabited

/-- What one schema file of queries or mutations says. -/
structure SchemaFile where
  kind : Kind
  owner : ModuleRef
  path : Path
  /-- The directory of the module, seen from the root of the project. -/
  moduleDir : Text
  /-- The file mentions the type for uploaded files. -/
  hasUpload : Bool
  actions : List Action
  deriving DecidableEq, Repr, Inhabited

/-- The text between the braces of a root type, as it stands in a schema file. -/
structure Document where
  kind : Kind
  path : Path
  interior : Text
  deriving DecidableEq, Repr, Inhabited

end Scaffold
