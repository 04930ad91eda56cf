import VolumeFS.Client
import VolumeFS.Mount

/-!
# Opening a file system

The settings decide which way the volume is reached. A mount is made ready at
once; a client needs somebody who connects it.
-/

set_option autoImplicit false

namespace VolumeFS

variable {m : Type → Type} [Monad m]

inductive Opened (m : Type → Type) where
  | client (c : Client m)
  | mount (t : Mount m)

namespace Opened

def uri : Opened m → String
  | .client c => c.uri
  | .mount t => t.uri

def workingDirectory : Opened m → Path
  | .client c => c.resolver.workingDirectory
  | .mount t => t.resolver.workingDirectory

end Opened

def openFileSystem [VolumeAccess m] [DiskAccess m] [Commands m] [Clock m] (config : Config)
    (user hostname : String) (connect? : Option (String → String → ExceptT Fault m String)) :
    ExceptT Fault m (Opened m) :=
  match config.backend with
  | .fuse => ExceptT.mk do
    match ← (Mount.ofConfig config hostname (Mount.commandOracle hostname)).start with
    | (.ok (), t) => return .ok (.mount t)
    | (.error fault, _) => return .error fault
  | .native =>
    match connect? with
    | none => throw (.config "native backend needs a volume connector")
    | some connect => do
      return .client (← Client.start connect config user (Client.attributeOracle hostname))

end VolumeFS
