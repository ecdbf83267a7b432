import Scaffold.Schema.Envelope
import Scaffold.Schema.Field

/-!
# The model of a project

All that a project's schema files say: the actions file by file, the interiors of the root types as
they stand, and the result types of the responses.
-/

namespace Scaffold.Schema

/-- What the schema files of a project say. -/
structure Model where
  /-- The files of queries, then those of mutations. -/
  files : List SchemaFile
  /-- The interiors of queries, mutations and subscriptions. -/
  documents : List Document
  responses : Registry

namespace Model

def empty : Model := ⟨[], [], .empty⟩

instance : Inhabited Model := ⟨empty⟩

def actions (m : Model) : List Action := m.files.flatMap SchemaFile.actions

/-- The actions under their names. Of several with one name, the last counts. -/
def actionTable (m : Model) : Table Text Action :=
  Table.ofList (m.actions.map fun a => (a.name, a))

def hasUpload (m : Model) : Bool := m.files.any SchemaFile.hasUpload

def actionCount (m : Model) : Nat := m.actions.length

end Model

def uploadType : Text := "Upload".toList

def responseMark : Text := "response.graphqls".toList

/-- The module and the directory that a schema file belongs to, from its place in the project:
`<modules>/<project>/<package>/…/<file>`. Directories for schema files do not count. -/
def layout? (modulesDir schemasDir relative : Text) : Option (ModuleRef × Text) :=
  match Text.parts '/' relative with
  | top :: project :: package :: rest@(_ :: _) =>
    if top = modulesDir then
      let dirs := (top :: project :: package :: rest.dropLast).filter (· ≠ schemasDir)
      some (⟨project, package⟩, Text.join ['/'] dirs)
    else none
  | _ => none

end Scaffold.Schema
