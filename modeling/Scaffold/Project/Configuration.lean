import Scaffold.Config.OfToml
import Scaffold.Disk.Tree
import Scaffold.Error
import Scaffold.Output.Setting

/-!
# The configuration of a project

A project can hold its configuration in a file at its root, and names its Go module there or in its
`go.mod` file.
-/

namespace Scaffold.Project

/-- The file that a configuration is read from. A file that is asked for must exist; the one at the
root is used if it exists. -/
def configFile? (t : Tree) (root : Path) (explicit : Option Path) : Option Path :=
  explicit <|> some (root.join Config.fileName) |>.filter fun p => explicit.isSome || t.isFile p

/-- The configuration of the project at `root`. -/
def loadConfig (t : Tree) (root : Path) (explicit : Option Path) : Except ConfigError Config :=
  match configFile? t root explicit with
  | none => .ok {}
  | some p =>
    match t.readText p with
    | .error cause => .error (.unreadable p cause)
    | .ok source =>
      match Config.ofToml? source with
      | some config => .ok config
      | none => .error .malformed

/-- The path of the project's Go module: the configured one, or the one in `go.mod`. -/
def goModule (t : Tree) (root : Path) (config : Config) : Except ConfigError Text :=
  let declared? := (t.readText (root.join "go.mod".toList)).toOption.bind Config.moduleOfGoMod?
  match config.configuredModule? <|> declared? with
  | some name => .ok name
  | none => .error (.missingGoModule root)

/-- What the files that are generated for the project depend on. -/
def setting (t : Tree) (root : Path) (config : Config) : Except ConfigError Setting :=
  return ⟨root, ← goModule t root config, config⟩

end Scaffold.Project
