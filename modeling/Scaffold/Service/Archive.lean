import Scaffold.Service.Stub

/-!
# The archive of a service file

Implementations that no action claims any more are appended to an archive beside the service file,
each under a name that carries the stamp of the run. A build constraint keeps the archive out of
the Go package.
-/

namespace Scaffold.Service

open Text

def archivedName (stamp name : Text) : Text := "BKP__".toList ++ stamp ++ '_' :: name

def archiveHeader (package : Text) : Text :=
  "//go:build ignore\n\npackage ".toList ++ package ++ "\n\n".toList

/-- What functions are appended to: the old archive, with a header if it names no package and with a
newline at its end. -/
def archiveBase (package existing : Text) : Text :=
  let base :=
    if occursIn "package".toList existing then existing else archiveHeader package ++ existing
  if base.getLast? = some '\n' then base else base ++ ['\n']

/-- A function under its name in the archive. -/
def archived (stamp : Text) (f : Go.Function) : Text :=
  f.renamed (archivedName stamp f.name) ++ "\n\n".toList

/-- The archive with the leftovers appended. Stubs are dropped, and nothing is written if there is
nothing else. -/
def archive? (package : Text) (existing : Option Text) (leftovers : List Go.Function)
    (stamp : Text) : Option Text :=
  match leftovers.filter (!isStub ·) with
  | [] => none
  | fs => some (archiveBase package (existing.getD []) ++ fs.flatMap (archived stamp))

end Scaffold.Service
