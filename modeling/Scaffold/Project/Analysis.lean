import Scaffold.Project.Discovery
import Scaffold.Schema.FlatText
import Scaffold.Schema.Model

/-!
# Analysis of a project

From the files of a project to its model: all responses are registered first, then the files of
each kind are read one after the other. The first file that breaks a rule ends the analysis.
-/

namespace Scaffold.Project

open Text Schema

def readSchema (t : Tree) (p : Path) : Except SchemaError Text :=
  (t.readText p).mapError (.unreadable p)

/-- Registers the responses of one file after the other. -/
def readResponses (t : Tree) : List Found → Registry → Except SchemaError Registry
  | [], registry => .ok registry
  | f :: rest, registry => do
    let (registry, count) := register f.path (← readSchema t f.path) registry
    let _ ← count
    readResponses t rest registry

/-- What a file of queries or mutations says, from the interior of its type block. -/
def schemaFile (paths : Paths) (kind : Kind) (f : Found) (interior : Text) :
    Except SchemaError SchemaFile := do
  let some (owner, moduleDir) := layout? paths.modulesDir paths.schemasDir f.relative
    | throw (.unexpectedLayout f.path)
  let flat := flatten interior
  return { kind, owner, path := f.path, moduleDir
           hasUpload := occursIn uploadType flat
           actions := ← Schema.actions ⟨f.path, kind, owner⟩ flat }

/-- Reads a schema file; the actions of subscriptions are not asked for. -/
def readFile (t : Tree) (paths : Paths) (kind : Kind) (f : Found) :
    Except SchemaError (Option SchemaFile × Document) := do
  let some interior := interior? (← readSchema t f.path)
    | throw (.missingTypeBlock f.path)
  let file ← if kind = .subscription then pure none else some <$> schemaFile paths kind f interior
  return (file, ⟨kind, f.path, interior⟩)

/-- The schema files of a project with their kinds: queries, mutations, subscriptions. -/
def schemaFiles (files : List Found) : List (Kind × Found) :=
  Kind.all.flatMap fun kind => (withMark kind.fileMark files).map fun f => (kind, f)

/-- The model of a project, from the files found in it. -/
def readModel (t : Tree) (paths : Paths) (files : List Found) : Except SchemaError Model := do
  let responses ← readResponses t (withMark responseMark files) .empty
  let read ← (schemaFiles files).mapM fun (kind, f) => readFile t paths kind f
  return ⟨read.filterMap (·.1), read.map (·.2), responses⟩

def analyze (t : Tree) (root : Path) (config : Config) : Except Error Model := do
  let files ← (discover t root config.scan).mapError .scan
  (readModel t config.paths files).mapError .schema

end Scaffold.Project
