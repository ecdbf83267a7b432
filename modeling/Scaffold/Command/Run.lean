import Scaffold.Command.Arguments
import Scaffold.Json.Model
import Scaffold.Project.Generation

/-!
# The command

What a call of the command does to the disk and what it prints. A run writes what is generated and
reports its stages; a dry run only names the files that would be written, and answers with the exit
code 1 if there are any; a dump prints the model.
-/

namespace Scaffold.Command

open Project

/-- How a call of the command ends. -/
inductive Outcome where
  /-- It did what it was asked to do. -/
  | done (code : Nat) (output : Text)
  | failed (e : Error)
  | refused (e : UsageError)
  deriving DecidableEq, Repr

namespace Outcome

/-- The exit code. -/
def code : Outcome → Nat
  | done code _ => code
  | failed _ => 1
  | refused _ => 2

def output : Outcome → Text
  | done _ output => output
  | _ => []

/-- What goes to the standard error stream. An error that a file operation caused ends with the
cause once more. -/
def errorOutput : Outcome → Text
  | done .. => []
  | failed e =>
    '[' :: e.code ++ "] ".toList ++ e.message ++ e.cause?.elim [] because ++ ['\n']
  | refused e => "error: ".toList ++ e.message ++ ['\n']

end Outcome

def versionText : Text := "resolvgen 0.1.0\n".toList

/-- The text of the help. -/
def helpText : Text :=
  ("Generate gqlgen resolvers and service scaffolding from module schemas\n\n" ++
    "Usage: resolvgen [OPTIONS]\n\n" ++
    "Options:\n" ++
    "      --root <ROOT>      Project root holding go.mod and the modules directory " ++
    "[env: RESOLVGEN_ROOT=] [default: .]\n" ++
    "  -c, --config <CONFIG>  Path to the TOML configuration file. " ++
    "Defaults to <root>/resolvgen.toml when present\n" ++
    "      --log <LOG_LEVEL>  Log filter used when RESOLVGEN_LOG is unset [default: info]\n" ++
    "      --dry-run          Render everything, write nothing; " ++
    "exit with status 1 when files would change\n" ++
    "      --dump-model       Print the extracted schema model as JSON and exit\n" ++
    "  -h, --help             Print help\n" ++
    "  -V, --version          Print version\n").toList

def defaultRoot : Path := ⟨['.']⟩

/-- Prints the model of a project. -/
def dump (t : Tree) (root : Path) (config : Config) : Except Error Text :=
  return (Json.ofModel (← analyze t root config)).print ++ ['\n']

/-- The lines that name the files that a run would write. -/
def preview (t : Tree) (root : Path) (config : Config) (stamp : Text) :
    Except Error (List Text) := do
  let p ← plan t root config stamp
  let pending ← (p.staging.pending t).mapError .emit
  return pending.map fun a =>
    "would write ".toList ++ ((a.path.relativeTo? root).getD a.path).text ++ ['\n']

/-- The end of a call that leaves the disk alone. -/
def Outcome.ofResult {α : Type} (code : α → Nat) (output : α → Text) : Except Error α → Outcome
  | .ok a => .done (code a) (output a)
  | .error e => .failed e

/-- Does what the options ask for. -/
def perform (t : Tree) (o : Options) (stamp : Text) : Tree × Outcome :=
  let root := o.root.getD defaultRoot
  match loadConfig t root o.config with
  | .error e => (t, .failed (.config e))
  | .ok config =>
    if o.dumpModel then (t, .ofResult (fun _ => 0) id (dump t root config))
    else if o.dryRun then
      (t, .ofResult (fun lines => if lines = [] then 0 else 1) List.flatten
        (preview t root config stamp))
    else
      let (t, result) := run t root config stamp
      (t, .ofResult (fun _ => 0) (fun (p, _) => p.stages.flatMap (·.name ++ ['\n'])) result)

/-- What a run stages, in the order in which it is written; nothing, if the run writes nothing. -/
def staged (t : Tree) (o : Options) (stamp : Text) : List Artifact :=
  let root := o.root.getD defaultRoot
  let artifacts : Except Error (List Artifact) := do
    let config ← (loadConfig t root o.config).mapError .config
    return (← plan t root config stamp).staging.artifacts
  if o.dryRun || o.dumpModel then [] else artifacts.toOption.getD []

/-- A call of the command. -/
def call (t : Tree) (arguments : List Text) (stamp : Text) : Tree × Outcome :=
  match Options.ofArguments arguments with
  | .error .help => (t, .done 0 helpText)
  | .error .version => (t, .done 0 versionText)
  | .error (.refused e) => (t, .refused e)
  | .ok o => perform t o stamp

end Scaffold.Command
