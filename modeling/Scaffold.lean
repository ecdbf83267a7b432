import Scaffold.Main
import Scaffold.Proofs.Go.Loose
import Scaffold.Proofs.Go.Plain
import Scaffold.Proofs.Service.Layout
import Scaffold.Proofs.Go.Writing
import Scaffold.Proofs.Service.Written
import Scaffold.Proofs.Service.Drift
import Scaffold.Proofs.Table
import Scaffold.Proofs.Service.Clause
import Scaffold.Proofs.Service.Merging
import Scaffold.Proofs.Service.Idempotence
import Scaffold.Proofs.Service.Archiving
import Scaffold.Proofs.Service.Preservation
import Scaffold.Proofs.Service.Accounting
import Scaffold.Proofs.Go.Opening
import Scaffold.Proofs.Go.Source
import Scaffold.Proofs.Go.Recognition
import Scaffold.Proofs.Service.Declared
import Scaffold.Proofs.Service.History
import Scaffold.Proofs.Output.Dispatching
import Scaffold.Proofs.Schema.Defaults
import Scaffold.Proofs.Schema.LeadingComments
import Scaffold.Proofs.Schema.Documentation
import Scaffold.Proofs.Project.ModuleDirectory
import Scaffold.Proofs.Schema.Headers
import Scaffold.Proofs.Schema.Calls
import Scaffold.Proofs.Schema.Separators
import Scaffold.Proofs.Schema.Respacing
import Scaffold.Proofs.Schema.Commas
import Scaffold.Proofs.Project.Reading
import Scaffold.Proofs.Output.Methods
import Scaffold.Proofs.Output.Qualifiers
import Scaffold.Proofs.Output.Coverage
import Scaffold.Proofs.Naming.Recasing
import Scaffold.Proofs.Naming.Boundaries
import Scaffold.Proofs.Output.Parameters
import Scaffold.Proofs.Schema.Registering
import Scaffold.Proofs.Service.Untouched
import Scaffold.Proofs.Disk.View
import Scaffold.Proofs.Disk.Course
import Scaffold.Proofs.Disk.Stops
import Scaffold.Proofs.Disk.Writing
import Scaffold.Proofs.Disk.Committing
import Scaffold.Proofs.Disk.DryRun
import Scaffold.Proofs.Disk.Interrupting
import Scaffold.Proofs.Project.Rendering
import Scaffold.Proofs.Project.Interruption
import Scaffold.Proofs.Project.DiscoveryOrder
import Scaffold.Proofs.Project.Isolation
import Scaffold.Proofs.Service.Redrifting
import Scaffold.Proofs.Service.Structure
import Scaffold.Proofs.Service.Comments
import Scaffold.Proofs.Go.Masking
import Scaffold.Proofs.Go.Inertness
import Scaffold.Proofs.Schema.Closing
import Scaffold.Proofs.Output.Assembling
import Scaffold.Proofs.Naming.Stability
import Scaffold.Proofs.Schema.ArgumentOrder
import Scaffold.Proofs.Schema.Canonical
import Scaffold.Proofs.Schema.Balance
import Scaffold.Proofs.Schema.Violations
import Scaffold.Proofs.Service.Partition
import Scaffold.Proofs.Naming.ListLevels
import Scaffold.Proofs.Schema.Mentions
import Scaffold.Proofs.Output.Uploads
import Scaffold.Proofs.Service.Leftovers
import Scaffold.Proofs.Go.Spans
import Scaffold.Proofs.Service.ArchiveHeader
