import VolumeFS.Stream

/-!
# Reading bytes in memory

A cursor stands somewhere in a row of bytes, perhaps past its end, where there
is nothing to read.
-/

set_option autoImplicit false

namespace VolumeFS

/-- The place a distance away, unless it lies before 0 or does not fit into 64 bits. -/
def Offset.moved? (place : Nat) (distance : Int) : Option UInt64 :=
  let target := (place : Int) + distance
  if 0 ≤ target ∧ target ≤ Offset.largest then some (UInt64.ofNat target.toNat) else none

structure Cursor where
  data : List Byte
  position : UInt64
  deriving DecidableEq, Repr, Inhabited

namespace Cursor

def ofBytes (data : List Byte) : Cursor := ⟨data, 0⟩

def next (c : Cursor) (n : Nat) : List Byte :=
  (c.data.drop c.position.toNat).take n

def advance (c : Cursor) (n : Nat) : Cursor :=
  { c with position := UInt64.ofNat (c.position.toNat + n) }

def target? (c : Cursor) : SeekFrom → Option UInt64
  | .start offset => some offset
  | .current distance => Offset.moved? c.position.toNat distance
  | .stop distance => Offset.moved? c.data.length distance

def badSeek : IoError :=
  .custom .invalidInput "invalid seek to a negative or overflowing position"

end Cursor

instance {m : Type → Type} [Monad m] : Readable Cursor m where
  read n := do
    let bytes := (← get).next n
    modify fun c => c.advance bytes.length
    return bytes
  seek place := do
    match (← get).target? place with
    | some position =>
      modify fun c => { c with position }
      return position
    | none => throw Cursor.badSeek

end VolumeFS
