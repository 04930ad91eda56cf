import VolumeFS.Clock
import VolumeFS.Command.Shell
import VolumeFS.Config
import VolumeFS.FileSystem
import VolumeFS.Path.WorkingDirectory
import VolumeFS.Placement.Oracle
import VolumeFS.Stream.Buffer
import VolumeFS.Stream.Copy
import VolumeFS.Tree
import VolumeFS.Volume.Access

/-!
# The client of a volume

A client serves the contract by the volume's own calls. The volume knows only
keys and single entries; working directory, parents, recursive deletes, renames
and placement are the client's. A rename that the volume refuses is done by
copying and then deleting.
-/

set_option autoImplicit false

namespace VolumeFS

open Volume

structure Client (m : Type → Type) where
  /-- The name of the volume it is connected to. -/
  volumeName : String
  authority : String
  bufferSize : Nat
  resolver : Resolver
  oracle : Oracle m
  /-- Where the current user starts. -/
  home : Path

namespace Client

variable {m : Type → Type} [Monad m]

def key (p : Path) : Key := Key.ofText p.text

def homeOf (user : String) : Path := (Path.root.child "user").child user

def resolve (c : Client m) (p : Path) : ExceptT Fault m Path :=
  ExceptT.mk (pure (c.resolver.resolve p))

def uri (c : Client m) : String := Path.volumeScheme ++ "://" ++ c.authority

def setWorkingDirectory (c : Client m) (p : Path) : Except Fault (Client m) :=
  (c.resolver.setWorkingDirectory p).map fun resolver => { c with resolver }

def qualify (c : Client m) (p : Path) : Path :=
  let absolute := match c.resolver.resolve p with
    | .ok absolute => absolute
    | .error _ => p.unqualified
  absolute.qualified Path.volumeScheme (some c.authority)

def statusOf (c : Client m) (p : Path) (st : Stat) : Status :=
  let path := c.qualify p
  let status := if st.isDirectory then Status.directory path else Status.file path st.length
  { status with ownership :=
    ⟨true, some (toString st.uid.toNat), some (toString st.gid.toNat),
      some (Permission.ofMode st.mode)⟩ }

def requireFile (p : Path) : Option Stat → Except Fault Stat
  | none => .error (.notFound p.text)
  | some st => if st.isDirectory then .error (.isADirectory p.text) else .ok st

variable [VolumeAccess m]

def tree [Clock m] : Tree m where
  kind p := return (← VolumeAccess.stat (key p)).map fun st =>
    if st.isDirectory then .directory else .file
  makeDirectory p := VolumeAccess.makeDirectory (key p)
  childNames p := VolumeAccess.list (key p)
  removeEntry p _ := VolumeAccess.delete (key p)
  pause := Clock.pause
  reach := VolumeAccess.reach

def requireStat (p : Path) : ExceptT Fault m Stat := do
  match ← VolumeAccess.stat (key p) with
  | some st => return st
  | none => throw (.notFound p.text)

def isThere (c : Client m) (p : Path) : ExceptT Fault m Bool := do
  return (← VolumeAccess.stat (key (← c.resolve p))).isSome

/-- The statuses of those names in a directory that are still there. -/
def statuses (c : Client m) (directory : Path) : List String → ExceptT Fault m (List Status)
  | [] => return []
  | name :: names => do
    let child := directory.child name
    let st? ← VolumeAccess.stat (key child)
    let rest ← statuses c directory names
    return match st? with
      | some st => c.statusOf child st :: rest
      | none => rest

def list (c : Client m) (p : Path) : ExceptT Fault m (List Status) := do
  let p ← c.resolve p
  let st ← requireStat p
  if !st.isDirectory then return [c.statusOf p st]
  let statuses ← c.statuses p (← VolumeAccess.list (key p))
  return statuses.mergeSort fun a b => a.path.le b.path

def status (c : Client m) (p : Path) : ExceptT Fault m Status := do
  let p ← c.resolve p
  return c.statusOf p (← requireStat p)

def loadOwnership (c : Client m) (s : Status) : ExceptT Fault m Status := do
  if s.ownership.loaded then return s
  let p := s.path.unqualified
  let st ← requireStat p
  return { s with ownership := (c.statusOf p st).ownership }

def openFile (c : Client m) (p : Path) : ExceptT Fault m (InputStream (ReadBuffer Reader)) := do
  let p ← c.resolve p
  let _ ← ExceptT.mk (pure (requireFile p (← VolumeAccess.stat (key p))))
  let reader ← VolumeAccess.openReader (key p)
  return .start (.ofCapacity c.bufferSize reader) .native (c.qualify p)

def output (c : Client m) (writer : Writer) (capacity : Nat) (p : Path) :
    OutputStream (WriteBuffer Writer) :=
  .start (.ofCapacity capacity writer) (c.qualify p)

def append (c : Client m) (p : Path) : ExceptT Fault m (OutputStream (WriteBuffer Writer)) := do
  let p ← c.resolve p
  let st ← ExceptT.mk (pure (requireFile p (← VolumeAccess.stat (key p))))
  let writer ← VolumeAccess.openWriter (key p)
  let (_, writer) ← Stream.orFault (VolumeAccess.seekWriter (.start st.length)) writer
  return c.output writer c.bufferSize p

def copyBytes (c : Client m) (source target : Key) : ExceptT Fault m Unit := do
  let reader ← VolumeAccess.openReader source
  let writer ← VolumeAccess.openWriter target
  let pieces := reader.cursor.data.length + 2
  let (_, writer) ← Stream.copy pieces (ReadBuffer.ofCapacity c.bufferSize reader) writer
  let _ ← Stream.orFault Writable.shutdown writer

/-- Copies one entry to a place where nothing is, with its permission, and gives what is below it
to be copied after it. -/
def copyEntry (c : Client m) (source target : Path) : ExceptT Fault m (List (Path × Path)) := do
  let st ← Volume.requireStat (key source)
  let below ← if st.isDirectory then do
      VolumeAccess.makeDirectory (key target)
      let names ← VolumeAccess.list (key source)
      pure (names.map fun name => (source.child name, target.child name))
    else do
      VolumeAccess.createFile (key target)
      c.copyBytes (key source) (key target)
      pure []
  VolumeAccess.chmod (key target) st.mode
  return below

/-- Copies the pending pairs and all that lies below, the last first. -/
def copyAll (c : Client m) : Nat → List (Path × Path) → ExceptT Fault m Unit
  | _, [] => return
  | 0, _ => throw Tree.endless
  | fuel + 1, (source, target) :: pending => do
    let below ← c.copyEntry source target
    copyAll c fuel (below.reverse ++ pending)

def copyTree (c : Client m) (source target : Path) : ExceptT Fault m Unit := do
  let fuel := (← (VolumeAccess.reach : m Nat)) + 1
  c.copyAll fuel [(source, target)]

def blockLocations (c : Client m) (s : Status) (start length : UInt64) :
    ExceptT Fault m (List BlockLocation) :=
  match Offset.clampRange s.length start length with
  | none => return []
  | some (start, length) => orElseOf (c.oracle.locations s.path.unqualified.text start length) []

def blockSize (c : Client m) (p : Path) : ExceptT Fault m UInt64 := do
  let p ← c.resolve p
  let st ← requireStat p
  let size ← orElseOf (c.oracle.blockSize p.text) 0
  return if size = 0 then st.length else size

def replication (c : Client m) (p : Path) : ExceptT Fault m UInt16 := do
  let p ← c.resolve p
  let _ ← requireStat p
  orElseOf (c.oracle.replication p.text) 1

def setPermission (c : Client m) (p : Path) (permission : Permission) :
    ExceptT Fault m Unit := do
  let p ← c.resolve p
  let _ ← Volume.requireStat (key p)
  VolumeAccess.chmod (key p) permission.mode

def permit (p : Path) : Option Permission → ExceptT Fault m Unit
  | some permission => VolumeAccess.chmod (key p) permission.mode
  | none => return

section Clock

variable [Clock m]

def mkdirs (c : Client m) (p : Path) (permission : Option Permission) :
    ExceptT Fault m Unit := do
  let p ← c.resolve p
  tree.mkdirs p
  permit p permission

/-- Clears the way for a new file: a file that is there is removed if it may be replaced. -/
def clear (p : Path) (overwrite : Bool) : ExceptT Fault m Unit := do
  match ← VolumeAccess.stat (key p) with
  | none => return
  | some st =>
    if st.isDirectory then throw (.isADirectory p.text)
    if !overwrite then throw (.alreadyExists p.text)
    VolumeAccess.delete (key p)

def makeFile (c : Client m) (p : Path) (options : CreateOptions) :
    ExceptT Fault m (OutputStream (WriteBuffer Writer)) := do
  tree.ensureParent p
  VolumeAccess.createFile (key p)
  permit p options.permission
  let writer ← VolumeAccess.openWriter (key p)
  return c.output writer (options.bufferSize.getD c.bufferSize) p

def create (c : Client m) (p : Path) (options : CreateOptions) :
    ExceptT Fault m (OutputStream (WriteBuffer Writer)) := do
  let p ← c.resolve p
  clear p options.overwrite
  c.makeFile p options

/-- Moves a path to a free place, by copying and then deleting where the volume does not do it. -/
def moveTo (c : Client m) (source target : Path) : ExceptT Fault m Unit := do
  match ← attempt (VolumeAccess.rename (key source) (key target)) with
  | .ok () => return
  | .error _ =>
    c.copyTree source target
    tree.remove source true

def rename (c : Client m) (source destination : Path) : ExceptT Fault m Unit := do
  let source ← c.resolve source
  let destination ← c.resolve destination
  let _ ← requireStat source
  let target ← tree.renameTarget source destination
  if target = source then return
  c.moveTo source target

def delete (c : Client m) (p : Path) (recursive : Bool) : ExceptT Fault m Unit := do
  tree.remove (← c.resolve p) recursive

end Clock

section Commands

variable [Commands m]

def userId (user : String) : ExceptT Fault m Int :=
  match Text.int64? user with
  | some n => return n
  | none => return (← Shell.userId user).toNat

def groupId (group : String) : ExceptT Fault m Int :=
  match Text.int64? group with
  | some n => return n
  | none => return (← Shell.groupId group).toNat

def setOwner (c : Client m) (p : Path) (owner group : Option String) :
    ExceptT Fault m Unit := do
  if owner.isNone && group.isNone then
    throw (.invalidArgument "owner and group are both unset")
  let p ← c.resolve p
  let st ← Volume.requireStat (key p)
  let uid ← match owner with
    | some owner => userId owner
    | none => pure (st.uid.toNat : Int)
  let gid ← match group with
    | some group => groupId group
    | none => pure (st.gid.toNat : Int)
  VolumeAccess.chown (key p) uid gid

end Commands

def inspect (c : Client m) : String :=
  Text.titled "NativeFileSystem"
    [("volume", Text.quoted c.volumeName), ("authority", Text.quoted c.authority),
     ("working_directory", c.resolver.workingDirectory.inspect)]
    true

def attributeOracle (here : String) : Oracle m :=
  Oracle.ofAttribute
    (fun path => VolumeAccess.attributeOf (Key.ofText path) Shell.pathinfoName) here

/-- The client of the volume that `connect` reaches, given the server and the volume's name. The
user's directory is made if that is possible, and the client starts in it. -/
def start [Clock m] (connect : String → String → ExceptT Fault m String) (config : Config)
    (user : String) (oracle : Oracle m) : ExceptT Fault m (Client m) := do
  let volumeName ← connect config.serverName config.volumeName
  let home := homeOf user
  let resolver ← ExceptT.mk (pure (Resolver.start Path.volumeScheme home))
  let _ ← attempt (tree.mkdirs home : ExceptT Fault m Unit)
  return {
    volumeName
    authority := config.authority?.getD config.serverName
    bufferSize := config.tunedBufferSize
    resolver, oracle, home }

end Client

instance {m : Type → Type} [Monad m] [VolumeAccess m] [Commands m] [Clock m] :
    FileSystem (Client m) m (ReadBuffer Reader) (WriteBuffer Writer) where
  uri := Client.uri
  workingDirectory c := c.resolver.workingDirectory
  setWorkingDirectory := Client.setWorkingDirectory
  home := Client.home
  qualify := Client.qualify
  isThere := Client.isThere
  mkdirs := Client.mkdirs
  list := Client.list
  status := Client.status
  loadOwnership := Client.loadOwnership
  openFile := Client.openFile
  create := Client.create
  append := Client.append
  rename := Client.rename
  delete := Client.delete
  blockLocations := Client.blockLocations
  blockSize := Client.blockSize
  replication := Client.replication
  space _ := VolumeAccess.space
  setOwner := Client.setOwner
  setPermission := Client.setPermission
  close c := c
  inspect := Client.inspect

end VolumeFS
