import VolumeFS.Offset
import VolumeFS.Placement.Pathinfo

/-!
# Which bricks hold which bytes

A striped file is cut into chunks of the stripe size, and chunk `c` lies on
group `c` modulo the number of groups. Without a stripe size the bricks of all
groups stand for the whole range. A hint says this for one range of bytes.
-/

set_option autoImplicit false

namespace VolumeFS

/-- The bricks that hold the bytes from `offset` up to `offset + length`. -/
structure Hint where
  offset : UInt64
  length : UInt64
  replicas : List Brick
  deriving DecidableEq, Repr, Inhabited

namespace Placement

def chunkSize? (p : Placement) : Option { size : UInt64 // size ≠ 0 } :=
  p.stripeSize.bind fun size => if h : size = 0 then none else some ⟨size, h⟩

def group (p : Placement) (chunk : Nat) : List Brick :=
  p.groups.get ⟨chunk % p.groups.length, Nat.mod_lt _ (List.length_pos_iff.2 p.named)⟩

theorem group_found (p : Placement) (chunk : Nat) :
    p.groups[chunk % p.groups.length]? = some (p.group chunk) :=
  List.getElem?_eq_getElem _

/-- Where the part of a range that lies on a chunk begins. -/
def chunkFirst (size start chunk : UInt64) : UInt64 :=
  max (Offset.mulSat chunk size) start

/-- Where the part of a range that lies on a chunk ends. -/
def chunkLast (size stop chunk : UInt64) : UInt64 :=
  min (Offset.mulSat (Offset.addSat chunk 1) size) stop

def chunkHint (p : Placement) (size start stop chunk : UInt64) : Hint :=
  let first := chunkFirst size start chunk
  ⟨first, Offset.subSat (chunkLast size stop chunk) first, p.group chunk.toNat⟩

/-- Where a chunk ends before the range does, the next chunk has a number. -/
theorem next_chunk_lt {size stop chunk : UInt64} (hsize : size ≠ 0)
    (h : chunkLast size stop chunk < stop) : chunk.toNat + 1 < stop.toNat := by
  have hstop := Offset.toNat_le_largest stop
  have hpos := Offset.toNat_pos hsize
  have hle := Nat.le_mul_of_pos_right (min (chunk.toNat + 1) Offset.largest) hpos
  have hone : (1 : UInt64).toNat = 1 := rfl
  rw [UInt64.lt_iff_toNat_lt, chunkLast, Offset.toNat_min, Offset.toNat_mulSat,
    Offset.toNat_addSat, hone] at h
  omega

/-- The hints for the bytes up to `stop` from a chunk on: one a chunk, until the range ends. -/
def chunkHints (p : Placement) (size : UInt64) (hsize : size ≠ 0) (start stop chunk : UInt64) :
    List Hint :=
  if h : chunkLast size stop chunk < stop then
    let next := UInt64.ofNatLT (chunk.toNat + 1)
      (Nat.lt_trans (next_chunk_lt hsize h) stop.toNat_lt)
    p.chunkHint size start stop chunk :: p.chunkHints size hsize start stop next
  else [p.chunkHint size start stop chunk]
termination_by stop.toNat - chunk.toNat
decreasing_by
  have := next_chunk_lt hsize h
  simp only [UInt64.toNat_ofNatLT]
  omega

/-- The hints that cover `[start, start + length)`: one a chunk, and at least one. -/
def hints (p : Placement) (start length : UInt64) : List Hint :=
  match p.chunkSize? with
  | none => [⟨start, length, p.groups.flatten⟩]
  | some ⟨size, hsize⟩ =>
    p.chunkHints size hsize start (Offset.addSat start length) (start / size)

end Placement

namespace Hint

/-- Adds a hint to hints in the order of their offsets, in place of one at the same offset. -/
def insert (h : Hint) : List Hint → List Hint
  | [] => [h]
  | g :: gs =>
    if h.offset < g.offset then h :: g :: gs
    else if h.offset = g.offset then h :: gs
    else g :: insert h gs

/-- The hints in the order of their offsets; of those at one offset the last is kept. -/
def byOffset (hints : List Hint) : List Hint :=
  hints.foldl (fun kept h => insert h kept) []

/-- The first brick of a hint on this host. -/
def onHost? (here : String) (h : Hint) : Option Brick :=
  h.replicas.find? fun brick => Host.isSame brick.host here

/-- The brick file that serves every hint from this host, where they all name the same one. -/
def localReplica? (here : String) (hints : List Hint) : Option String := do
  let bricks ← hints.mapM (onHost? here)
  let first ← bricks.head?
  if bricks.all (·.path == first.path) then some first.path else none

end Hint

end VolumeFS
