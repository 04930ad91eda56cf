import VolumeFS.Path
import VolumeFS.Permission

/-!
# What the file system says about its entries

A `Status` describes one file or directory. Owner, group and permission may be
loaded later than the rest; until then a placeholder stands for the owner.
-/

set_option autoImplicit false

namespace VolumeFS

structure Ownership where
  loaded : Bool
  owner : Option String
  group : Option String
  permission : Option Permission
  deriving DecidableEq, Repr, Inhabited

def Ownership.unknown : Ownership := ⟨false, none, none, none⟩

structure Status where
  /-- Absolute, with scheme and authority. -/
  path : Path
  length : UInt64
  isDirectory : Bool
  replication : UInt16
  blockSize : UInt64
  ownership : Ownership
  deriving DecidableEq, Repr, Inhabited

namespace Status

/-- The block size of a file about which nothing better is known. -/
def defaultBlockSize : UInt64 := 67108864

def placeholder : String := "root"

def directory (path : Path) : Status :=
  ⟨path, 0, true, 1, 0, .unknown⟩

def file (path : Path) (length : UInt64) : Status :=
  ⟨path, length, false, 1, defaultBlockSize, .unknown⟩

def owner (s : Status) : String :=
  s.ownership.owner.getD placeholder

def group (s : Status) : String :=
  s.ownership.group.getD placeholder

end Status

/-- The hosts that hold a range of a file, the preferred one first. -/
structure BlockLocation where
  offset : UInt64
  length : UInt64
  hosts : List String
  deriving DecidableEq, Repr, Inhabited

structure Space where
  capacity : UInt64
  used : UInt64
  remaining : UInt64
  deriving DecidableEq, Repr, Inhabited

structure CreateOptions where
  /-- Whether a file that is already there is replaced. -/
  overwrite : Bool
  bufferSize : Option Nat
  permission : Option Permission
  deriving DecidableEq, Repr, Inhabited

end VolumeFS
