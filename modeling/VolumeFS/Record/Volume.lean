import VolumeFS.Record.Form
import VolumeFS.Stream.Statistics
import VolumeFS.Volume

/-!
# Volumes and statistics as records

A volume is written as the list of its entries in the order of their paths.
-/

set_option autoImplicit false

namespace VolumeFS

open Record

def Volume.Stat.fields (s : Volume.Stat) : List (String × Value) :=
  [entry "dir" s.isDirectory, entry "length" s.length, entry "mode" s.mode,
   entry "uid" s.uid, entry "gid" s.gid]

instance : ToRecord Volume.Stat := ⟨fun s => .table s.fields⟩

def Volume.stats (v : Volume) : List (String × Volume.Stat) :=
  (v.entries.map fun (k, e) => (k.text, e.stat)).mergeSort fun a b => decide (a.1 ≤ b.1)

instance : ToRecord Volume where
  toRecord v := .list (v.stats.map fun (path, s) => .table (entry "path" path :: s.fields))

instance : ToRecord Statistics where
  toRecord s := .table
    [entry "bytes_read" s.bytesRead, entry "bytes_written" s.bytesWritten,
     entry "read_ops" s.readOps, entry "write_ops" s.writeOps]

end VolumeFS
