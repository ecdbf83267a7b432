import Scaffold.Disk.Staging
import Scaffold.Output.CombinedSchema
import Scaffold.Output.Dispatch
import Scaffold.Project.Analysis
import Scaffold.Project.Configuration
import Scaffold.Service.Archive
import Scaffold.Service.Regeneration

/-!
# Generation

A run analyses the project, renders all files and commits them. Rendering reads the service files
and archives that are there, but writes nothing, so that a run that fails before the commit leaves
the project as it was. An archive is staged before the service file that loses its functions, so
that no moment of the commit is without them.
-/

namespace Scaffold.Project

/-- A step of rendering that is complete. -/
inductive Stage where
  | schemas
  | resolver
  | services
  deriving DecidableEq, Repr

/-- The name of a stage, as it is reported. -/
def Stage.name : Stage → Text
  | schemas => "RenderSchemas".toList
  | resolver => "RenderResolver".toList
  | services => "RenderService".toList

/-- What happened to the service files of a run. -/
structure ServiceReport where
  services : Nat
  tally : Service.Tally
  /-- Implementations that went to archives. -/
  archived : Nat
  deriving DecidableEq, Repr, Inhabited

def ServiceReport.zero : ServiceReport := ⟨0, .zero, 0⟩

/-- What is left over from the old service file of a group, as its archive takes it. -/
def archiveOf (t : Tree) (s : Setting) (stamp : Text) (g : Service.Group)
    (leftovers : List Go.Function) : Except EmitError (Option Artifact) := do
  if leftovers = [] then return none
  let path := Service.archivePath s g.toGroupId
  let old ← readExisting t path
  return (Service.archive? g.package old leftovers stamp).map fun content => ⟨path, content⟩

/-- A group with its new service file and the archive that changes, if one does. -/
structure RenderedGroup where
  archive : Option Artifact
  service : Artifact
  report : ServiceReport
  deriving DecidableEq, Repr

/-- Renders the service file of a group over the one that is there. -/
def renderGroup (t : Tree) (s : Setting) (responses : Schema.Registry) (stamp : Text)
    (g : Service.Group) : Except EmitError RenderedGroup := do
  let path := Service.servicePath s g.toGroupId
  let out := Service.regenerate s responses g (← readExisting t path)
  let archive ← archiveOf t s stamp g out.leftovers
  let archived := if archive.isSome then out.leftovers.countP (!Service.isStub ·) else 0
  return ⟨archive, ⟨path, out.content⟩, ⟨1, out.tally, archived⟩⟩

def ServiceReport.add (a b : ServiceReport) : ServiceReport :=
  ⟨a.services + b.services, a.tally.add b.tally, a.archived + b.archived⟩

/-- Stages what was rendered for a group: the archive first. -/
def RenderedGroup.stage (g : RenderedGroup) (staging : Staging) : Staging :=
  let staging := g.archive.elim staging fun a => staging.push a.path a.content
  staging.push g.service.path g.service.content

/-- Renders and stages the service files of all groups. -/
def renderServices (t : Tree) (s : Setting) (m : Schema.Model) (stamp : Text) (staging : Staging) :
    Except EmitError (Staging × ServiceReport) := do
  let rendered ← (Service.groups m.files).mapM (renderGroup t s m.responses stamp)
  return (rendered.foldl (fun staging g => g.stage staging) staging,
    rendered.foldl (fun report g => report.add g.report) .zero)

/-- A run before its commit: everything is rendered, and nothing is written. -/
structure Plan where
  stages : List Stage
  staging : Staging
  services : ServiceReport

/-- Renders all files of a model. -/
def render (t : Tree) (root : Path) (config : Config) (stamp : Text) (m : Schema.Model) :
    Except Error Plan := do
  let s ← (setting t root config).mapError .config
  let schema := s.outputPath config.paths.schemaOutput
  let resolver := s.outputPath config.paths.resolverOutput
  let staging := (Staging.empty.push schema (Output.combinedSchema m.documents)).push resolver
    (Output.resolverFile s m)
  let (staging, services) ← (renderServices t s m stamp staging).mapError .emit
  return ⟨[.schemas, .resolver, .services], staging, services⟩

def plan (t : Tree) (root : Path) (config : Config) (stamp : Text) : Except Error Plan := do
  render t root config stamp (← analyze t root config)

/-- Analyses and renders, and then commits. -/
def run (t : Tree) (root : Path) (config : Config) (stamp : Text) :
    Tree × Except Error (Plan × Committed) :=
  match plan t root config stamp with
  | .error e => (t, .error e)
  | .ok p =>
    let (t, result) := p.staging.commit t
    (t, (result.map (p, ·)).mapError .emit)

end Scaffold.Project
