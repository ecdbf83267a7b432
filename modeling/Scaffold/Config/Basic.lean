import Scaffold.Disk.Path
import Scaffold.Text.Letter

/-!
# Configuration

Where a project keeps its schemas, where the generated files go, and what to leave out. Every entry
has a default, so that the empty configuration fits a project of the usual layout.
-/

namespace Scaffold

/-- Places in the project, seen from its root. -/
structure Paths where
  /-- The directory that holds the modules. -/
  modulesDir : Text := "modules".toList
  /-- The name of directories that hold schema files inside a package. -/
  schemasDir : Text := "schemas".toList
  /-- The combined schema. -/
  schemaOutput : Path := ⟨"graph/schema.graphqls".toList⟩
  /-- The file of resolver methods. -/
  resolverOutput : Path := ⟨"graph/schema.resolvers.go".toList⟩
  deriving DecidableEq, Repr, Inhabited

/-- How the project is searched for schema files. -/
structure ScanRules where
  /-- Patterns of files to pass over. -/
  extraIgnore : List Text := []
  followSymlinks : Option Bool := none
  respectGitignore : Option Bool := none
  deriving DecidableEq, Repr, Inhabited

/-- What generated Go code imports. -/
structure Imports where
  /-- The package of the type for uploaded files. -/
  upload : Text := "github.com/99designs/gqlgen/graphql".toList
  /-- Further imports of a new service file. -/
  extraService : List Text := []
  deriving DecidableEq, Repr, Inhabited

/-- The configuration of a project. -/
structure Config where
  /-- The path of the Go module, in front of every generated import. -/
  goModule : Option Text := none
  paths : Paths := {}
  scan : ScanRules := {}
  imports : Imports := {}
  deriving DecidableEq, Repr, Inhabited

/-- Symbolic links are followed only on demand. -/
def ScanRules.followsLinks (rules : ScanRules) : Bool := rules.followSymlinks.getD false

/-- Git's ignore files count unless they are switched off. -/
def ScanRules.usesGitignore (rules : ScanRules) : Bool := rules.respectGitignore.getD true

/-- The directory of the resolver file, which also holds the package of the model. -/
def Paths.graphDir (paths : Paths) : Path := paths.resolverOutput.parent?.getD ⟨[]⟩

namespace Config

open Text

def fileName : Text := "resolvgen.toml".toList

/-- The path of the Go module that is configured, without white space around it and without slashes
at its end. -/
def configuredModule? (config : Config) : Option Text :=
  (config.goModule.map fun name => dropEndWhile (· = '/') (trim name)).filter (· ≠ [])

/-- The module that a line of a `go.mod` file declares: the word `module`, white space, a path that
can stand in quotes, and a comment that can follow it. -/
def moduleOfLine? (line : Text) : Option Text := do
  let rest ← after? "module".toList (trim line)
  guard (rest.head?.any isBlank)
  let path := trim ((cutAt? "//".toList rest).elim rest (·.1))
  let bare := dropEndWhile (· = '"') (path.dropWhile (· = '"'))
  guard (bare ≠ [])
  return bare

def moduleOfGoMod? (content : Text) : Option Text := (lines content).findSome? moduleOfLine?

end Config

end Scaffold
