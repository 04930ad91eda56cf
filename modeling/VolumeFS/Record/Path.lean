import VolumeFS.Path
import VolumeFS.Record.Form

/-!
# Paths as records

A path is written with its parts and with what can be read off them.
-/

set_option autoImplicit false

namespace VolumeFS

open Record

instance : ToRecord Path where
  toRecord p := .table
    [entry "display" p.display, entry "scheme" p.scheme, entry "authority" p.authority,
     entry "absolute" p.absolute, entry "segments" p.segments, entry "name" p.name?,
     entry "is_root" p.isRoot, entry "path_str" p.text,
     entry "parent" (p.parent?.map Path.display), entry "lineage" (p.lineage.map Path.display)]

end VolumeFS
