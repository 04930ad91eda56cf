import VolumeFS.Path
import VolumeFS.Text.Quoted

/-!
# Paths shown in full

Every component of a path by its name, for messages to those who look for
mistakes.
-/

set_option autoImplicit false

namespace VolumeFS.Path

def inspect (p : Path) : String :=
  Text.titled "FsPath"
    [("scheme", Text.optional p.scheme), ("authority", Text.optional p.authority),
     ("absolute", if p.absolute then "true" else "false"),
     ("segments", Text.quotedList p.segments)]
    false

end VolumeFS.Path
