import Scaffold.Command.Run
import Scaffold.Service.Stamp
import Std.Time.DateTime.Timestamp

/-!
# The program

Reads the project from the disk into a file tree, lets the command work on the tree, and writes what
it staged. All decisions are the command's.
-/

namespace Scaffold.Program

open Command

/-- What has been read so far. -/
structure Snapshot where
  tree : Tree
  /-- Directories outside the project that were entered. -/
  entered : List Location

/-- Where a project stands: its names on the disk and its location in the tree. -/
structure Place where
  names : List Text
  location : Location
  /-- Directories behind links are read. -/
  followsLinks : Bool

/-- Where in the tree things stand that are outside the project: below a name that no file can have,
in a directory that no project enters. -/
def outside : Location := ["node_modules".toList, ['\x00']]

/-- The location of something on the disk. -/
def Place.locate (p : Place) (names : List Text) : Location :=
  if p.names.isPrefixOf names then p.location ++ names.drop p.names.length else outside ++ names

def namesOf (path : String) : List Text := Text.parts '/' path.toList

def inside (path name : String) : String := path ++ "/" ++ name

def contentOf (path : String) : IO Content := do
  return .ofBytes (← IO.FS.readBinFile path).toList

def isDirectory (path : String) : IO Bool := (System.mkFilePath [path]).isDir

def put (l : Location) (e : Entry) : StateT Snapshot IO Unit :=
  modify fun s => { s with tree := s.tree.place l e }

/-- Puts a directory into the tree, where nothing stands yet. -/
def putDirectory (l : Location) : StateT Snapshot IO Unit := do
  if ((← get).tree.find? l).isNone then put l .emptyDirectory

/-- Puts the directories above a location into the tree, where nothing stands yet. -/
def putAbove (l : Location) : StateT Snapshot IO Unit := do
  for n in List.range (l.length - 1) do
    putDirectory (l.take (n + 1))

/-- The target of a link that leads nowhere: no file can have its name. -/
def nowhere : Text := "/\x00/\x00".toList

def readFile (l : Location) (path : String) : StateT Snapshot IO Unit := do
  try put l (.file (← contentOf path)) catch _ => return

mutual

/-- Reads what stands at a path. -/
partial def readEntry (p : Place) (l : Location) (path : String) : StateT Snapshot IO Unit := do
  match (← (System.mkFilePath [path]).symlinkMetadata).type with
  | .dir =>
    putDirectory l
    readBelow p l path
  | .file => readFile l path
  | .symlink =>
    try
      let real := (← IO.FS.realPath path).toString
      let target := p.locate (namesOf real)
      readTarget p target real
      put l (.link ('/' :: Text.join ['/'] target))
    catch _ => put l (.link nowhere)
  | .other => return

/-- Reads the entries of a directory. The last one comes first, so that each is put in front of the
tree. Of directories that hold nothing of the project's own, only the ignore rules are read. -/
partial def readBelow (p : Place) (l : Location) (path : String) : StateT Snapshot IO Unit := do
  let entries ← (System.mkFilePath [path]).readDir
  let names := (entries.toList.map (·.fileName)).mergeSort fun a b => Text.le b.toList a.toList
  for name in names do
    if name = ".git" && (← isDirectory (inside path name)) then
      let exclude := inside path ".git/info/exclude"
      putDirectory (l ++ [name.toList])
      if ← (System.mkFilePath [exclude]).pathExists then
        putDirectory (l ++ [name.toList, "info".toList])
        readFile (l ++ [name.toList, "info".toList, "exclude".toList]) exclude
    else if name = ".git" || !Project.foreignDirectories.contains name.toList then
      readEntry p (l ++ [name.toList]) (inside path name)

/-- Reads what a link leads to, unless it is read as a part of the project. -/
partial def readTarget (p : Place) (l : Location) (real : String) : StateT Snapshot IO Unit := do
  if outside.isPrefixOf l && !(← get).entered.contains l then
    putAbove l
    if ← isDirectory real then
      modify fun s => { s with entered := l :: s.entered }
      putDirectory l
      if p.followsLinks then readBelow p l real
    else readFile l real

end

/-- Reads a file that the command may need, wherever it stands. -/
def readExtra (path : Path) : StateT Snapshot IO Unit := do
  let real := String.ofList path.text
  if (← (System.mkFilePath [real]).pathExists) && !(← isDirectory real) then
    let content ← contentOf real
    modify fun s =>
      let (tree, _) := s.tree.makeDirectories (path.parent?.getD ⟨[]⟩)
      { s with tree := (tree.write path content).toOption.getD tree }

/-- Reads the ignore rules of the directories above a project, which stands at `l`. -/
def readRulesAbove (root : Path) (l : Location) : StateT Snapshot IO Unit := do
  unless root.components.contains .up do
    for n in List.range l.length do
      let dir : Path := ⟨(if root.isAbsolute then ['/'] else []) ++ Text.join ['/'] (l.take n)⟩
      for name in [".ignore", ".gitignore", ".git", ".git/info/exclude"] do
        readExtra (dir.join name.toList)

/-- Reads the rules that files named `.git` lead to. -/
def readGitFolders : StateT Snapshot IO Unit := do
  for (l, entry) in (← get).tree.listing do
    if let .file content := entry then
      if l.getLast? = some ".git".toList then
        if let .ok (some folder) := Ignore.linkedFolder? content then
          readExtra (Ignore.commonFile folder)
        let dir : Path := ⟨'/' :: Text.join ['/'] l.dropLast⟩
        if let .ok folder := Ignore.gitFolder (← get).tree dir then
          readExtra (folder.join "info/exclude".toList)

/-- Reads the project at `root`, if it is a directory. -/
def readProject (root : Path) (followsLinks : Bool) : StateT Snapshot IO Unit := do
  let real := String.ofList root.text
  if ← isDirectory real then
    let (tree, _) := (← get).tree.makeDirectories root
    match tree.reach .target root with
    | .error _ => return
    | .ok ⟨location, _⟩ =>
      modify fun s => { s with tree }
      let names := namesOf (← IO.FS.realPath real).toString
      readBelow ⟨names, location, followsLinks⟩ location real
      readRulesAbove root location
      readGitFolders

/-- All that the command may read. -/
def readAll (o : Options) : IO Tree := do
  let root := o.root.getD defaultRoot
  let configFile := o.config.getD (root.join Config.fileName)
  let ((), first) ← (readExtra configFile).run ⟨.empty, []⟩
  let config := (Project.loadConfig first.tree root o.config).toOption.getD {}
  let read : StateT Snapshot IO Unit := do
    readProject root config.scan.followsLinks
    for extra in [config.paths.schemaOutput, config.paths.resolverOutput] do
      readExtra (root.join extra.text)
    readExtra configFile
  return (← read.run ⟨.empty, []⟩).2.tree

/-- Writes an artifact beside its place and moves it there. -/
def writeArtifact (a : Artifact) : IO Unit := do
  match a.path.parent? with
  | some above => unless above.text = [] do IO.FS.createDirAll (String.ofList above.text)
  | none => pure ()
  let draft := String.ofList a.draftPath.text
  IO.FS.writeFile draft (String.ofList a.content)
  IO.FS.rename draft (String.ofList a.path.text)

def stampNow : IO Text := do
  let now ← Std.Time.Timestamp.now
  return (Service.Moment.ofSeconds now.toSecondsSinceUnixEpoch.toInt.toNat).stamp

/-- Lets the command work on the disk. The environment can name the root of the project. -/
def runOnDisk (arguments : List Text) : IO Outcome := do
  let stamp ← stampNow
  match Options.ofArguments arguments with
  | .error _ => return (call .empty arguments stamp).2
  | .ok o =>
    let named := (← IO.getEnv "RESOLVGEN_ROOT").map fun root => (⟨root.toList⟩ : Path)
    let o := { o with root := o.root <|> named }
    let before ← readAll o
    let (after, outcome) := perform before o stamp
    for a in staged before o stamp do
      unless (after.readText a.path).toOption = (before.readText a.path).toOption do
        writeArtifact a
    return outcome

end Scaffold.Program

/-- The command line. -/
def main (arguments : List String) : IO UInt32 := do
  let outcome ← Scaffold.Program.runOnDisk (arguments.map String.toList)
  IO.print (String.ofList outcome.output)
  IO.eprint (String.ofList outcome.errorOutput)
  return outcome.code.toUInt32
