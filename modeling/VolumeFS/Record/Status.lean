import VolumeFS.Record.Form
import VolumeFS.Status

/-!
# Statuses, permissions, locations and space as records

A permission is read as a number of 16 bits, taken as it is, and written with
its symbolic form beside it. A location and the space of a volume need all
their fields to be read.
-/

set_option autoImplicit false

namespace VolumeFS

open Record

/-- A number of 16 bits; bits that mean no permission are kept. -/
def Permission.ofRecord? (v : Value) : Option Permission :=
  (v.natBelow? UInt16.size).map fun n => ⟨UInt16.ofNat n⟩

namespace Record

def Value.uint64? (v : Value) : Option UInt64 :=
  (v.natBelow? UInt64.size).map UInt64.ofNat

end Record

def BlockLocation.ofRecord? (v : Value) : Option BlockLocation := do
  match ← fields? ["offset", "length", "hosts"] v with
  | [some offset, some length, some hosts] =>
    return ⟨← offset.uint64?, ← length.uint64?, ← (← hosts.list?).mapM Value.text?⟩
  | _ => none

def Space.ofRecord? (v : Value) : Option Space := do
  match ← fields? ["capacity", "used", "remaining"] v with
  | [some capacity, some used, some remaining] =>
    return ⟨← capacity.uint64?, ← used.uint64?, ← remaining.uint64?⟩
  | _ => none

instance : ToRecord Permission where
  toRecord p := .table [entry "mode" p.bits, entry "symbolic" p.symbolic]

instance : ToRecord BlockLocation where
  toRecord l := .table
    [entry "offset" l.offset, entry "length" l.length, entry "hosts" l.hosts]

instance : ToRecord Space where
  toRecord s := .table
    [entry "capacity" s.capacity, entry "used" s.used, entry "remaining" s.remaining]

instance : ToRecord Ownership where
  toRecord o := .table
    [entry "loaded" o.loaded, entry "owner" o.owner, entry "group" o.group,
     entry "permission" o.permission]

instance : ToRecord Status where
  toRecord s := .table
    [entry "path" s.path.display, entry "length" s.length, entry "is_dir" s.isDirectory,
     entry "is_file" !s.isDirectory, entry "replication" s.replication,
     entry "block_size" s.blockSize, entry "owner" s.owner, entry "group" s.group,
     entry "permission" (s.ownership.permission.map Permission.bits),
     entry "symbolic" (s.ownership.permission.map Permission.symbolic),
     entry "loaded" s.ownership.loaded]

end VolumeFS
