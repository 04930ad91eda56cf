import VolumeFS.Clock
import VolumeFS.Command.Shell
import VolumeFS.Config
import VolumeFS.Disk.Access
import VolumeFS.FileSystem
import VolumeFS.Path.WorkingDirectory
import VolumeFS.Placement.Oracle
import VolumeFS.Stream.Buffer
import VolumeFS.Tree

/-!
# Mounted volumes

A mount serves the contract by the files under a directory at which the volume
is mounted. The path `/a` of the volume is the file `a` under that directory,
and a path that already leads there is taken as it is. Nothing is touched
before the volume is mounted. Where quick reading is on and one brick file on
this host holds the whole file, that file is read in place of the mounted one.
-/

set_option autoImplicit false

namespace VolumeFS

namespace Mount

inductive Phase where
  | uninitialized
  | mounting
  | mounted
  | closed
  deriving DecidableEq, Repr, Inhabited

def Phase.name : Phase → String
  | .uninitialized => "Uninitialized"
  | .mounting => "Mounting"
  | .mounted => "Mounted"
  | .closed => "Closed"

end Mount

structure Mount (m : Type → Type) where
  config : Config
  phase : Mount.Phase
  resolver : Resolver
  oracle : Oracle m
  /-- The name of this host. -/
  hostname : String
  /-- The directory at which the volume is mounted. -/
  directory : String
  authority : String

namespace Mount

variable {m : Type → Type} [Monad m]

def ofConfig (config : Config) (hostname : String) (oracle : Oracle m) : Mount m where
  config
  phase := .uninitialized
  resolver := ⟨Path.volumeScheme, .root⟩
  oracle
  hostname
  directory := config.mount.getD ""
  authority := config.authority?.getD ""

def uri (t : Mount m) : String := Path.volumeScheme ++ "://" ++ t.authority

def directoryPath (t : Mount m) : Path :=
  (Path.parse t.directory).toOption.getD .root

/-- The path seen from the root of the volume. -/
def logical (t : Mount m) (p : Path) : Except Fault Path := do
  let absolute ← t.resolver.resolve p
  if t.directory = "" then return absolute
  return (absolute.below? t.directoryPath).getD absolute

/-- A name below a directory; an absolute one stands in place of the directory. -/
def pushName (directory name : String) : String :=
  if name.toList.head? = some '/' then name
  else if directory = "" ∨ directory.toList.getLast? = some '/' then directory ++ name
  else directory ++ "/" ++ name

def localPath (t : Mount m) (p : Path) : String :=
  p.segments.foldl pushName t.directory

def setWorkingDirectory (t : Mount m) (p : Path) : Except Fault (Mount m) := do
  let resolver ← t.resolver.setWorkingDirectory (← t.logical p)
  return { t with resolver }

def label (t : Mount m) (p : Path) : Path :=
  p.qualified Path.volumeScheme (some t.authority)

def qualify (t : Mount m) (p : Path) : Path :=
  t.label (match t.logical p with
    | .ok p => p
    | .error _ => p.unqualified)

def statusOf (t : Mount m) (p : Path) (found : Disk.Metadata) : Status :=
  if found.isDirectory then .directory (t.label p) else .file (t.label p) found.length

def requireMounted (t : Mount m) : ExceptT Fault m Unit :=
  if t.phase = .mounted then return
  else throw (.config s!"filesystem is not mounted ({t.phase.name})")

/-- The path seen from the root of the volume, once that is mounted. -/
def enter (t : Mount m) (p : Path) : ExceptT Fault m Path := do
  t.requireMounted
  ExceptT.mk (pure (t.logical p))

def naming {α : Type} (path : String) (x : ExceptT IoError m α) : ExceptT Fault m α :=
  ExceptT.adapt (Fault.ofIo · path) x

def close (t : Mount m) : Mount m := { t with phase := .closed }

def inspect (t : Mount m) : String :=
  Text.titled "LocalMountFileSystem"
    [("mount_point", Text.quoted t.directory), ("authority", Text.quoted t.authority),
     ("hostname", Text.quoted t.hostname)]
    true

section Disk

variable [DiskAccess m]

def metadata (t : Mount m) (p : Path) : ExceptT Fault m Disk.Metadata :=
  naming p.text (DiskAccess.metadata (t.localPath p))

def kind (t : Mount m) (p : Path) : ExceptT Fault m (Option EntryKind) := do
  let file := t.localPath p
  ExceptT.mk do
    match ← (DiskAccess.metadata file : ExceptT IoError m Disk.Metadata).run with
    | .ok found => return .ok (some (if found.isDirectory then .directory else .file))
    | .error e => return if e.kind = .notFound then .ok none else .error (.ofIo e file)

def tree [Clock m] (t : Mount m) : Tree m where
  kind := t.kind
  makeDirectory p :=
    let file := t.localPath p
    naming file (DiskAccess.createDirectory file)
  childNames p :=
    let file := t.localPath p
    naming file (DiskAccess.readDirectory file)
  removeEntry p kind :=
    let file := t.localPath p
    naming file <| match kind with
      | .file => DiskAccess.removeFile file
      | .directory => DiskAccess.removeDirectory file
  pause := Clock.pause
  reach := DiskAccess.reach

def isThere (t : Mount m) (p : Path) : ExceptT Fault m Bool := do
  let p ← t.enter p
  return (← t.kind p).isSome

def setPermission (t : Mount m) (p : Path) (permission : Permission) :
    ExceptT Fault m Unit := do
  let p ← t.enter p
  naming p.text (DiskAccess.setMode (t.localPath p) permission.mode)

/-- The statuses of those names in a directory that are still there. -/
def statuses (t : Mount m) (directory : Path) : List String → ExceptT Fault m (List Status)
  | [] => return []
  | name :: names => do
    let child := directory.child name
    match ← attempt (t.metadata child) with
    | .ok found => return t.statusOf child found :: (← statuses t directory names)
    | .error fault => if fault.isNotFound then statuses t directory names else throw fault

def status (t : Mount m) (p : Path) : ExceptT Fault m Status := do
  let p ← t.enter p
  return t.statusOf p (← t.metadata p)

def quickSource (t : Mount m) (p : Path) (length : UInt64) : ExceptT Fault m (Option String) := do
  if !t.config.quickRead then return none
  let hints ← orElseOf (t.oracle.quickRead (t.localPath p) 0 length) none
  return hints.bind (Hint.localReplica? t.hostname)

def openBrick : Option String → ExceptT Fault m (Option Disk.Reader)
  | none => return none
  | some brick => orElseOf (some <$> naming brick (DiskAccess.openReader brick)) none

def openFile (t : Mount m) (p : Path) :
    ExceptT Fault m (InputStream (ReadBuffer Disk.Reader)) := do
  let p ← t.enter p
  let found ← t.metadata p
  if found.isDirectory then throw (.isADirectory p.text)
  let opened (reader : Disk.Reader) (source : StreamSource) :=
    InputStream.start (.ofCapacity t.config.tunedBufferSize reader) source (t.qualify p)
  match ← openBrick (← t.quickSource p found.length) with
  | some reader => return opened reader .localReplica
  | none =>
    return opened (← naming p.text (DiskAccess.openReader (t.localPath p))) .mount

def append (_ : Mount m) (p : Path) :
    ExceptT Fault m (OutputStream (WriteBuffer Disk.Writer)) :=
  throw (.unsupported s!"append is not supported on the mount adapter: {p.display}")

def blockLocations (t : Mount m) (s : Status) (start length : UInt64) :
    ExceptT Fault m (List BlockLocation) := do
  t.requireMounted
  match Offset.clampRange s.length start length with
  | none => return []
  | some (start, length) =>
    let p ← ExceptT.mk (pure (t.logical s.path.unqualified))
    orElseOf (t.oracle.locations (t.localPath p) start length) []

def blockSize (t : Mount m) (p : Path) : ExceptT Fault m UInt64 := do
  let p ← t.enter p
  let found ← t.metadata p
  let size ← orElseOf (t.oracle.blockSize (t.localPath p)) 0
  return if size = 0 then found.length else size

def replication (t : Mount m) (p : Path) : ExceptT Fault m UInt16 := do
  let p ← t.enter p
  let _ ← t.metadata p
  orElseOf (t.oracle.replication (t.localPath p)) 1

def space (t : Mount m) : ExceptT Fault m Space := do
  t.requireMounted
  naming t.directory (DiskAccess.space t.directory)

section Clock

variable [Clock m]

def mkdirs (t : Mount m) (p : Path) (permission : Option Permission) :
    ExceptT Fault m Unit := do
  let p ← t.enter p
  t.tree.mkdirs p
  match permission with
  | some permission => t.setPermission p permission
  | none => return

def list (t : Mount m) (p : Path) : ExceptT Fault m (List Status) := do
  let p ← t.enter p
  let found ← t.metadata p
  if !found.isDirectory then return [t.statusOf p found]
  let statuses ← t.statuses p (← t.tree.childNames p)
  return statuses.mergeSort fun a b => a.path.le b.path

def checkFree (t : Mount m) (p : Path) (overwrite : Bool) : ExceptT Fault m Unit := do
  match ← t.kind p with
  | some .directory => throw (.isADirectory p.text)
  | some .file => if overwrite then return else throw (.alreadyExists p.text)
  | none => return

def create (t : Mount m) (p : Path) (options : CreateOptions) :
    ExceptT Fault m (OutputStream (WriteBuffer Disk.Writer)) := do
  let p ← t.enter p
  t.checkFree p options.overwrite
  t.tree.ensureParent p
  let file := t.localPath p
  let writer ← naming p.text (DiskAccess.openWriter file)
  match options.permission with
  | some permission => naming p.text (DiskAccess.setMode file permission.mode)
  | none => pure ()
  let capacity := options.bufferSize.getD t.config.tunedBufferSize
  return .start (.ofCapacity capacity writer) (t.qualify p)

def rename (t : Mount m) (source destination : Path) : ExceptT Fault m Unit := do
  let source ← t.enter source
  let destination ← t.enter destination
  if (← t.kind source).isNone then throw (.notFound source.text)
  let target ← t.tree.renameTarget source destination
  if target = source then return
  naming s!"{source.display} -> {target.display}"
    (DiskAccess.rename (t.localPath source) (t.localPath target))

def delete (t : Mount m) (p : Path) (recursive : Bool) : ExceptT Fault m Unit := do
  t.tree.remove (← t.enter p) recursive

end Clock

end Disk

section Commands

variable [Commands m]

def commandOracle (here : String) : Oracle m :=
  Oracle.ofAttribute Shell.pathinfo here

/-- Mounts the volume, once; afterwards there is nothing more to do. A mount that failed can be
tried again. -/
def start (t : Mount m) : m (Except Fault Unit × Mount m) :=
  match t.phase with
  | .mounted => return (.ok (), t)
  | .closed => return (.error (.config "filesystem is closed"), t)
  | _ =>
    match t.config.mountSettings with
    | .error fault => return (.error fault, t)
    | .ok s => do
      match ← (Shell.ensureMounted s.server s.volume s.directory).run with
      | .ok _ => return (.ok (), { t with phase := .mounted })
      | .error fault => return (.error fault, { t with phase := .uninitialized })

def loadOwnership (t : Mount m) (s : Status) : ExceptT Fault m Status := do
  if s.ownership.loaded then return s
  let p ← t.enter s.path.unqualified
  return { s with ownership := ← Shell.ownership (t.localPath p) }

def backupAcl (t : Mount m) (file : String) (p : Path) : ExceptT Fault m Shell.AclBackup := do
  let p ← t.enter p
  Shell.backupAcl file (t.localPath p)

def restoreAcl (t : Mount m) (backup : Shell.AclBackup) : ExceptT Fault m Unit := do
  t.requireMounted
  Shell.restoreAcl backup

def setOwner [DiskAccess m] (t : Mount m) (p : Path) (owner group : Option String) :
    ExceptT Fault m Unit := do
  if owner.isNone && group.isNone then
    throw (.invalidArgument "owner and group are both unset")
  let p ← t.enter p
  let _ ← t.metadata p
  let file := t.localPath p
  match owner, group with
  | some owner, group => Shell.chown file owner group
  | none, some group => Shell.chgrp file group
  | none, none => return

end Commands

end Mount

instance {m : Type → Type} [Monad m] [DiskAccess m] [Commands m] [Clock m] :
    FileSystem (Mount m) m (ReadBuffer Disk.Reader) (WriteBuffer Disk.Writer) where
  uri := Mount.uri
  workingDirectory t := t.resolver.workingDirectory
  setWorkingDirectory := Mount.setWorkingDirectory
  home _ := .root
  qualify := Mount.qualify
  isThere := Mount.isThere
  mkdirs := Mount.mkdirs
  list := Mount.list
  status := Mount.status
  loadOwnership := Mount.loadOwnership
  openFile := Mount.openFile
  create := Mount.create
  append := Mount.append
  rename := Mount.rename
  delete := Mount.delete
  blockLocations := Mount.blockLocations
  blockSize := Mount.blockSize
  replication := Mount.replication
  space := Mount.space
  setOwner := Mount.setOwner
  setPermission := Mount.setPermission
  close := Mount.close
  inspect := Mount.inspect

end VolumeFS
