import VolumeFS.Status
import VolumeFS.Stream.Handle

/-!
# The contract of a file system

What callers may rely on, whichever way the volume is reached. Paths may be
relative to a working directory, which is part of the file system's value;
statuses come back with absolute, qualified paths.
-/

set_option autoImplicit false

namespace VolumeFS

/-- `φ` is a file system with effects in `m`, open files being read as `ρ` and written as `ω`. -/
class FileSystem (φ : Type) (m : outParam (Type → Type)) (ρ ω : outParam Type) where
  /-- The address, such as `glusterfs://node1`. -/
  uri : φ → String
  workingDirectory : φ → Path
  setWorkingDirectory : φ → Path → Except Fault φ
  /-- The directory a user starts in. -/
  home : φ → Path
  /-- The absolute path with scheme and authority of this file system. -/
  qualify : φ → Path → Path
  isThere : φ → Path → ExceptT Fault m Bool
  /-- Makes a directory and all its parents. -/
  mkdirs : φ → Path → Option Permission → ExceptT Fault m Unit
  /-- A file's own status, or the statuses in a directory in the order of names. -/
  list : φ → Path → ExceptT Fault m (List Status)
  status : φ → Path → ExceptT Fault m Status
  /-- Fills in owner, group and permission, unless that is done. -/
  loadOwnership : φ → Status → ExceptT Fault m Status
  openFile : φ → Path → ExceptT Fault m (InputStream ρ)
  /-- Makes a file, and its parents; a file that is there is replaced only if asked for. -/
  create : φ → Path → CreateOptions → ExceptT Fault m (OutputStream ω)
  /-- Opens a file for writing at its end. -/
  append : φ → Path → ExceptT Fault m (OutputStream ω)
  /-- Moves a file or a directory, into the destination if that is a directory. -/
  rename : φ → Path → Path → ExceptT Fault m Unit
  delete : φ → Path → (recursive : Bool) → ExceptT Fault m Unit
  /-- The hosts for a range; none when they are not known. -/
  blockLocations : φ → Status → UInt64 → UInt64 → ExceptT Fault m (List BlockLocation)
  /-- The block size of a file, or its length when that is not known. -/
  blockSize : φ → Path → ExceptT Fault m UInt64
  replication : φ → Path → ExceptT Fault m UInt16
  space : φ → ExceptT Fault m Space
  /-- Changes owner, group or both; one of them has to be given. -/
  setOwner : φ → Path → Option String → Option String → ExceptT Fault m Unit
  setPermission : φ → Path → Permission → ExceptT Fault m Unit
  /-- Ends the use of the file system. -/
  close : φ → φ
  /-- Everything about the file system in one line, for those who look for mistakes. -/
  inspect : φ → String

/-- The value asked for, or the one that stands in when the answer is a fault. -/
def orElseOf {m : Type → Type} [Monad m] {α : Type} (x : ExceptT Fault m α) (standIn : α) :
    ExceptT Fault m α := do
  return (← attempt x).toOption.getD standIn

end VolumeFS
