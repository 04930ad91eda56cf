import VolumeFS.Stream

/-!
# Counting bytes

All streams of one file system add to the same `Statistics`, and each keeps a
count of its own. A call counts only if it moved at least one byte. Counters
are words of 64 bits.
-/

set_option autoImplicit false

namespace VolumeFS

structure Statistics where
  bytesRead : UInt64
  bytesWritten : UInt64
  readOps : UInt64
  writeOps : UInt64
  deriving DecidableEq, Repr, Inhabited

namespace Statistics

def zero : Statistics := ⟨0, 0, 0, 0⟩

def addBytesRead (n : UInt64) (s : Statistics) : Statistics :=
  { s with bytesRead := s.bytesRead + n }

def addBytesWritten (n : UInt64) (s : Statistics) : Statistics :=
  { s with bytesWritten := s.bytesWritten + n }

def addReadOp (s : Statistics) : Statistics :=
  { s with readOps := s.readOps + 1 }

def addWriteOp (s : Statistics) : Statistics :=
  { s with writeOps := s.writeOps + 1 }

end Statistics

structure Counted (σ : Type) where
  inner : σ
  count : UInt64
  deriving DecidableEq, Repr, Inhabited

namespace Counted

variable {m : Type → Type} [Monad m] [MonadStateOf Statistics m] {σ : Type} {α : Type}

def start (inner : σ) : Counted σ := ⟨inner, 0⟩

def onInner (x : StreamT σ m α) : StreamT (Counted σ) m α :=
  Stream.onPart Counted.inner (fun c inner => { c with inner }) x

def note (n : Nat) (total : Statistics → Statistics) : StreamT (Counted σ) m Unit := do
  if n ≠ 0 then
    modifyThe (Counted σ) fun c => { c with count := c.count + UInt64.ofNat n }
    (modifyThe Statistics total : m Unit)

def read [Readable σ m] (n : Nat) : StreamT (Counted σ) m (List Byte) := do
  let bytes ← onInner (Readable.read n)
  note bytes.length fun s => (s.addBytesRead (UInt64.ofNat bytes.length)).addReadOp
  return bytes

def write [Writable σ m] (bytes : List Byte) : StreamT (Counted σ) m Nat := do
  let n ← onInner (Writable.write bytes)
  note n fun s => (s.addBytesWritten (UInt64.ofNat n)).addWriteOp
  return n

end Counted

instance {m : Type → Type} [Monad m] [MonadStateOf Statistics m] {σ : Type} [Readable σ m] :
    Readable (Counted σ) m where
  read := Counted.read
  seek place := Counted.onInner (Readable.seek place)

instance {m : Type → Type} [Monad m] [MonadStateOf Statistics m] {σ : Type} [Writable σ m] :
    Writable (Counted σ) m where
  write := Counted.write
  flush := Counted.onInner Writable.flush
  shutdown := Counted.onInner Writable.shutdown

end VolumeFS
