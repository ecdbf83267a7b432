import Scaffold.Output.Setting
import Scaffold.Schema.Model

/-!
# Groups of actions

The actions of one module and one kind share a service file. A group collects them from all schema
files of that module and kind, in the order of their names; of several actions with one name, the
last counts.
-/

namespace Scaffold.Service

open Std Schema

/-- What a group is known by. -/
structure GroupId where
  owner : ModuleRef
  kind : Kind
  deriving DecidableEq, Repr, Inhabited

namespace GroupId

def project (id : GroupId) : Text := id.owner.project

def package (id : GroupId) : Text := id.owner.package

def rank (id : GroupId) : Nat := id.kind.rank

/-- Groups are ordered by project, then by package, then by kind. -/
instance : Ord GroupId :=
  ⟨compareLex (compareOn project) (compareLex (compareOn package) (compareOn rank))⟩

instance : TransOrd GroupId :=
  inferInstanceAs <| TransCmp <|
    compareLex (compareOn project) (compareLex (compareOn package) (compareOn rank))

end GroupId

/-- What has been collected for a group: whether a file mentions uploads, and the actions. -/
structure Collected where
  hasUpload : Bool
  actions : Table Text Action

/-- Adds a file to what has been collected. -/
def Collected.add (c : Collected) (file : SchemaFile) : Collected :=
  ⟨c.hasUpload || file.hasUpload, file.actions.foldl (fun t a => t.put a.name a) c.actions⟩

/-- Adds a file to the group it belongs to. -/
def addFile (groups : Table GroupId Collected) (file : SchemaFile) : Table GroupId Collected :=
  let id : GroupId := ⟨file.owner, file.kind⟩
  groups.put id (((groups.get? id).getD ⟨false, .empty⟩).add file)

/-- The actions of one module and kind. -/
structure Group extends GroupId where
  hasUpload : Bool
  actions : List Action
  deriving DecidableEq, Repr, Inhabited

def groups (files : List SchemaFile) : List Group :=
  (files.foldl addFile .empty).rows.map fun (id, c) =>
    { toGroupId := id, hasUpload := c.hasUpload, actions := c.actions.values }

def moduleDir (s : Setting) (owner : ModuleRef) : Path :=
  ((s.root.join s.config.paths.modulesDir).join owner.project).join owner.package

def servicePath (s : Setting) (id : GroupId) : Path :=
  (moduleDir s id.owner).join ("service_".toList ++ id.kind.name ++ ".go".toList)

def archivePath (s : Setting) (id : GroupId) : Path :=
  (moduleDir s id.owner).join ("service_".toList ++ id.kind.name ++ "_bkp.go".toList)

end Scaffold.Service
