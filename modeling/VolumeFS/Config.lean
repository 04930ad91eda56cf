import VolumeFS.Fault
import VolumeFS.Text.Blank
import VolumeFS.Text.Case
import VolumeFS.Text.Split

/-!
# Settings

What a file system is told before it starts. Every setting but the backend and
quick reading may be left out; what stands in for it is said here.
-/

set_option autoImplicit false

namespace VolumeFS

/-- How the volume is reached: through a mounted directory or through its own calls. -/
inductive Backend where
  | fuse
  | native
  deriving DecidableEq, Repr, Inhabited

def Backend.name : Backend → String
  | .fuse => "fuse"
  | .native => "native"

structure Config where
  backend : Backend
  volume : Option String
  server : Option String
  /-- The directory at which the volume is mounted. -/
  mount : Option String
  /-- Whether a copy on this host is read in place of the mounted file. -/
  quickRead : Bool
  bufferSize : Option Nat
  /-- The address of the file system, such as `glusterfs://node1`. -/
  uri : Option String
  deriving DecidableEq, Repr, Inhabited

namespace Config

def ofBackend (backend : Backend) : Config :=
  ⟨backend, none, none, none, false, none, none⟩

def untunedBufferSize : Nat := 4096

def tunedDefault : Nat := 131072

def defaultVolume : String := "gv0"

def defaultServer : String := "localhost"

def saysYes (word : String) : Bool :=
  ["yes", "on", "1", "true"].contains (Text.lower (Text.trim word))

structure MountSettings where
  volume : String
  server : String
  directory : String
  deriving DecidableEq, Repr, Inhabited

def mountSettings (c : Config) : Except Fault MountSettings :=
  match c.volume.filter (!Text.isBlankText ·) with
  | none => .error (.config "fs.glusterfs.volname is not set")
  | some volume =>
    match c.server.filter (!Text.isBlankText ·) with
    | none => .error (.config "fs.glusterfs.server is not set")
    | some server =>
      match c.mount.filter (· ≠ "") with
      | none => .error (.config "fs.glusterfs.mount is not set")
      | some directory => .ok ⟨volume, server, directory⟩

def volumeName (c : Config) : String :=
  c.volume.getD defaultVolume

def serverName (c : Config) : String :=
  c.server.getD defaultServer

/-- The buffer size that was chosen, unless it is 0 or the one that nobody chose. -/
def tunedBufferSize (c : Config) : Nat :=
  match c.bufferSize with
  | none => tunedDefault
  | some size => if size = untunedBufferSize ∨ size = 0 then tunedDefault else size

def uriAuthority? (uri : String) : Option String := do
  let (_, rest) ← Text.cutAt? [':', '/', '/'] uri.toList
  let authority := rest.takeWhile (· ≠ '/')
  if authority.isEmpty then none else some (String.ofList authority)

/-- The authority of the address, or else the server. -/
def authority? (c : Config) : Option String :=
  (c.uri.bind uriAuthority?).or c.server

end Config

end VolumeFS
