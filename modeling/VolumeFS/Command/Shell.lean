import VolumeFS.Command
import VolumeFS.Status
import VolumeFS.Text.Blank
import VolumeFS.Text.Numeral

/-!
# The commands a file system needs

Each function builds the arguments of one command and reads what it answers:
mounting, owners and permissions, extended attributes, access control lists and
the numbers behind names.
-/

set_option autoImplicit false

namespace VolumeFS.Shell

variable {m : Type → Type} [Monad m] [Commands m]

def pathinfoName : String := "trusted.glusterfs.pathinfo"

def invoke (program : String) (args : List String) : ExceptT Fault m CommandOutput := do
  match ← (Commands.run program args : m (Except IoError CommandOutput)) with
  | .error e => throw (.io (.custom e.kind s!"failed to run {program}: {e.message}"))
  | .ok output => return output

/-- What a command writes. A tolerated exit code counts as success with nothing written. -/
def exec (program : String) (args : List String) (tolerated : List Int) :
    ExceptT Fault m String := do
  let output ← invoke program args
  if output.code = some 0 then return output.stdout
  else if output.code.any tolerated.contains then return ""
  else throw (.process (" ".intercalate (program :: args)) output.code (Text.trim output.stderr))

def isMounted (directory : String) : ExceptT Fault m Bool :=
  return (← invoke "mountpoint" ["-q", directory]).code == some 0

inductive MountOutcome where
  | alreadyMounted
  | mounted
  /-- The command failed, but somebody else mounted the volume. -/
  | mountedConcurrently
  /-- The command could not be started, and the work goes on without it. -/
  | spawnFailed
  deriving DecidableEq, Repr, Inhabited

def MountOutcome.name : MountOutcome → String
  | .alreadyMounted => "AlreadyMounted"
  | .mounted => "Mounted"
  | .mountedConcurrently => "MountedConcurrently"
  | .spawnFailed => "SpawnFailed"

/-- Mounts the volume unless that is done. When the command fails, the mount point is looked at
once more before giving up. -/
def ensureMounted (server volume directory : String) : ExceptT Fault m MountOutcome := do
  match ← attempt (isMounted directory) with
  | .ok true => return .alreadyMounted
  | _ =>
    let source := s!"{server}:/{volume}"
    match ← attempt (exec "mount" ["-t", "glusterfs", source, directory] []) with
    | .ok _ => return .mounted
    | .error (.io _) => return .spawnFailed
    | .error fault =>
      match ← attempt (isMounted directory) with
      | .ok true => return .mountedConcurrently
      | _ => throw (.config s!"could not mount {source} at {directory}: {fault.message}")

/-- Owner, group and permission from the first line of a listing. Marks behind the tenth character
of the permission are cut off. -/
def ownershipOf (listing : String) : Ownership :=
  match (Text.words (Text.firstLine listing.toList)).take 4 with
  | [bits, _, owner, group] =>
    ⟨true, some (String.ofList owner), some (String.ofList group),
      (Permission.ofSymbolic (String.ofList (bits.take 10))).toOption⟩
  | _ => ⟨true, none, none, none⟩

/-- Owner, group and permission; exit code 1 means that there is nothing to know. -/
def ownership (path : String) : ExceptT Fault m Ownership :=
  return ownershipOf (← exec "ls" ["-ld", path] [1])

def chown (path user : String) (group : Option String) : ExceptT Fault m Unit := do
  let owner := match group with
    | some group => s!"{user}:{group}"
    | none => user
  let _ ← exec "chown" ["--", owner, path] []

def chgrp (path group : String) : ExceptT Fault m Unit := do
  let _ ← exec "chgrp" ["--", group, path] []

def pathinfo (path : String) : ExceptT Fault m (Option String) := do
  let output ← exec "getfattr" ["--absolute-names", "--only-values", "-n", pathinfoName, path] [1]
  let value := Text.trim output
  return if value = "" then none else some value

structure AclBackup where
  file : String
  text : String
  deriving DecidableEq, Repr, Inhabited

def backupAcl (file path : String) : ExceptT Fault m AclBackup := do
  return ⟨file, ← exec "getfacl" ["-pPdEsR", path] []⟩

def restoreAcl (backup : AclBackup) : ExceptT Fault m Unit := do
  let _ ← exec "setfacl" [s!"--restore={backup.file}"] []

def userId (user : String) : ExceptT Fault m UInt32 :=
  match Text.uint32? user with
  | some n => return n
  | none => do
    let output ← exec "id" ["-u", user] []
    match Text.uint32? (Text.trim output) with
    | some n => return n
    | none => throw (.other ("unexpected `id -u " ++ user ++ "` output: " ++ output))

/-- The number in the third field of an entry of the group table. -/
def groupNumber? (entry : String) : Option UInt32 := do
  let fields := Text.fields ':' (Text.trimChars entry.toList)
  Text.uint32? (String.ofList (← fields[2]?))

def groupId (group : String) : ExceptT Fault m UInt32 :=
  match Text.uint32? group with
  | some n => return n
  | none => do
    let output ← exec "getent" ["group", group] []
    match groupNumber? output with
    | some n => return n
    | none => throw (.other ("unexpected `getent group " ++ group ++ "` output: " ++ output))

def inspect : String := "Shell \x7b .. \x7d"

end VolumeFS.Shell
