import VolumeFS.Path

/-!
# Resolving paths against a working directory

A `Resolver` holds the working directory of one file system. It changes only
through `setWorkingDirectory`, which leaves it as it was when the new path is
refused.
-/

set_option autoImplicit false

namespace VolumeFS

/-- The scheme a file system answers to and its working directory. -/
structure Resolver where
  scheme : String
  workingDirectory : Path
  deriving DecidableEq, Repr, Inhabited

namespace Resolver

def start (scheme : String) (directory : Path) : Except Fault Resolver :=
  if directory.absolute then .ok ⟨scheme, directory.unqualified⟩
  else .error (.invalidPath s!"working directory must be absolute: {directory.display}")

/-- Whether a path names no scheme or the resolver's own. -/
def accepts (r : Resolver) (p : Path) : Bool :=
  p.scheme.all fun scheme => Text.sameLetters scheme r.scheme

/-- The absolute path without qualifier; a path of another scheme is refused. -/
def resolve (r : Resolver) (p : Path) : Except Fault Path :=
  if r.accepts p then
    .ok (if p.absolute then p.unqualified else r.workingDirectory.join p)
  else .error (.invalidPath s!"wrong filesystem: {p.display}, expected {r.scheme}")

def setWorkingDirectory (r : Resolver) (p : Path) : Except Fault Resolver :=
  (r.resolve p).map fun directory => { r with workingDirectory := directory }

end Resolver

end VolumeFS
