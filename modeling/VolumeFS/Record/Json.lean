import VolumeFS.Record.Value

/-!
# Records from JSON

In JSON only `null` says nothing but that it is there.
-/

set_option autoImplicit false

namespace VolumeFS.Record.Json

def format : Format where
  isUnit
    | .null => true
    | _ => false

end VolumeFS.Record.Json
