import VolumeFS.Placement.Hint
import VolumeFS.Status

/-!
# Answers about placement

An `Oracle` is whoever is asked where the bytes of a file lie. The usual one
reads the placement attribute of the file and knows nothing where that is
missing or unreadable; a table gives fixed answers; a broken one has none.
-/

set_option autoImplicit false

namespace VolumeFS

variable {m : Type → Type}

structure Oracle (m : Type → Type) where
  /-- The number of copies of each block. -/
  replication : String → ExceptT Fault m UInt16
  /-- The preferred block size; 0 when it is not known. -/
  blockSize : String → ExceptT Fault m UInt64
  /-- The hosts for a range; none when they are not known. -/
  locations : String → UInt64 → UInt64 → ExceptT Fault m (List BlockLocation)
  /-- The bricks for a range, in the order of offsets, when they are known. -/
  quickRead : String → UInt64 → UInt64 → ExceptT Fault m (Option (List Hint))

namespace Oracle

def location (here : String) (h : Hint) : BlockLocation :=
  ⟨h.offset, h.length, Host.localFirst here (Host.distinct (h.replicas.map Brick.host))⟩

def placement? [Monad m] (source : String → ExceptT Fault m (Option String)) (path : String) :
    ExceptT Fault m (Option Placement) := do
  return (← source path).bind fun value => (Placement.parse value).toOption

def ofAttribute [Monad m] (source : String → ExceptT Fault m (Option String)) (here : String) :
    Oracle m where
  replication path := do
    return ((← placement? source path).map Placement.replication).getD 1
  blockSize path := do
    return ((← placement? source path).bind Placement.stripeSize).getD 0
  locations path start length := do
    match ← placement? source path with
    | some p => return (p.hints start length).map (location here)
    | none => return []
  quickRead path start length := do
    return (← placement? source path).map fun p => Hint.byOffset (p.hints start length)

structure Table where
  replication : List (String × UInt16)
  blockSize : List (String × UInt64)
  locations : List (String × List BlockLocation)
  hints : List (String × List Hint)
  deriving Repr, Inhabited

def ofTable [Monad m] (t : Table) : Oracle m where
  replication path := return (t.replication.lookup path).getD 1
  blockSize path := return (t.blockSize.lookup path).getD 0
  locations path _ _ := return (t.locations.lookup path).getD []
  quickRead path _ _ := return (t.hints.lookup path).map Hint.byOffset

def broken [Monad m] (reason : String) : Oracle m where
  replication _ := throw (.backend reason)
  blockSize _ := throw (.backend reason)
  locations _ _ _ := throw (.backend reason)
  quickRead _ _ _ := throw (.backend reason)

end Oracle

end VolumeFS
