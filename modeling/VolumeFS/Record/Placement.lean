import VolumeFS.Placement.Hint
import VolumeFS.Record.Form

/-!
# Bricks and hints as records
-/

set_option autoImplicit false

namespace VolumeFS

open Record

instance : ToRecord Brick where
  toRecord b := .table
    [entry "host" b.host, entry "export" b.exportDir, entry "path" b.path]

instance : ToRecord Hint where
  toRecord h := .table
    [entry "offset" h.offset, entry "length" h.length, entry "replicas" h.replicas]

end VolumeFS
