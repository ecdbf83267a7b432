import Scaffold.Config.Basic
import Scaffold.Naming.GoType

/-!
# The setting of a run

What every generated file depends on besides the schemas: the root of the project, the path of its
Go module, and the configuration.
-/

namespace Scaffold

/-- The root, the Go module and the configuration of a project. -/
structure Setting where
  root : Path
  goModule : Text
  config : Config
  deriving DecidableEq, Repr, Inhabited

namespace Setting

def slashed (p : Path) : Text := Text.join ['/'] (p.components.map Path.Component.text)

def moduleImport (s : Setting) (dir : Text) : Text := s.goModule ++ '/' :: dir

/-- The import path of the package that holds the model. -/
def modelImport (s : Setting) : Text :=
  match slashed s.config.paths.graphDir with
  | [] => s.moduleImport Naming.modelPackage
  | dir => s.moduleImport (dir ++ '/' :: Naming.modelPackage)

def uploadImport (s : Setting) : Text := s.config.imports.upload

/-- A place in the project, seen from where the run started. -/
def outputPath (s : Setting) (relative : Path) : Path := s.root.join relative.text

end Setting

/-- A line of an import list. -/
def importLine (path : Text) : Text := "\t\"".toList ++ path ++ "\"\n".toList

end Scaffold
