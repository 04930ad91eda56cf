import VolumeFS.Stream

/-!
# Buffers around streams

A read buffer fetches as much as it can hold and hands it out in pieces; a read
that is at least as large goes past an empty buffer. A write buffer collects
small pieces; it is emptied when a piece does not fit, and a piece at least as
large as the buffer goes past it.
-/

set_option autoImplicit false

namespace VolumeFS

structure ReadBuffer (ρ : Type) where
  inner : ρ
  capacity : Nat
  /-- What was fetched and not yet handed out. -/
  rest : List Byte
  deriving DecidableEq, Repr, Inhabited

namespace ReadBuffer

variable {m : Type → Type} [Monad m] {ρ : Type} [Readable ρ m] {α : Type}

def ofCapacity (capacity : Nat) (inner : ρ) : ReadBuffer ρ := ⟨inner, capacity, []⟩

def onInner (x : StreamT ρ m α) : StreamT (ReadBuffer ρ) m α :=
  Stream.onPart ReadBuffer.inner (fun b inner => { b with inner }) x

def read (n : Nat) : StreamT (ReadBuffer ρ) m (List Byte) := do
  let b ← get
  if b.rest.isEmpty && decide (b.capacity ≤ n) then onInner (Readable.read n)
  else
    let rest ← if b.rest.isEmpty then onInner (Readable.read b.capacity) else pure b.rest
    modify fun b => { b with rest := rest.drop n }
    return rest.take n

def leastDistance : Int := -0x8000000000000000

/-- Seeks in the stream behind the buffer, which is ahead by what is left in it. -/
def seekInner : SeekFrom → StreamT (ReadBuffer ρ) m UInt64
  | .current distance => do
    let ahead := (← get).rest.length
    if leastDistance ≤ distance - ahead then onInner (Readable.seek (.current (distance - ahead)))
    else
      let _ ← onInner (Readable.seek (.current (-ahead)))
      modify fun b => { b with rest := [] }
      onInner (Readable.seek (.current distance))
  | place => onInner (Readable.seek place)

/-- Seeks and then forgets what was fetched. -/
def seek (place : SeekFrom) : StreamT (ReadBuffer ρ) m UInt64 := do
  let position ← seekInner place
  modify fun b => { b with rest := [] }
  return position

end ReadBuffer

instance {m : Type → Type} [Monad m] {ρ : Type} [Readable ρ m] : Readable (ReadBuffer ρ) m where
  read := ReadBuffer.read
  seek := ReadBuffer.seek

structure WriteBuffer (ω : Type) where
  inner : ω
  capacity : Nat
  /-- What was taken and not yet passed on. -/
  held : List Byte
  deriving DecidableEq, Repr, Inhabited

namespace WriteBuffer

variable {m : Type → Type} [Monad m] {ω : Type} [Writable ω m] {α : Type}

def ofCapacity (capacity : Nat) (inner : ω) : WriteBuffer ω := ⟨inner, capacity, []⟩

def onInner (x : StreamT ω m α) : StreamT (WriteBuffer ω) m α :=
  Stream.onPart WriteBuffer.inner (fun b inner => { b with inner }) x

/-- Passes bytes on until none are left or that fails; what is left comes with the outcome. -/
def passOn : List Byte → StateT ω m (Except IoError Unit × List Byte)
  | [] => return (.ok (), [])
  | b :: bs => do
    match ← (Writable.write (b :: bs) : StreamT ω m Nat).run with
    | .error e => return (.error e, b :: bs)
    | .ok 0 =>
      return (.error (.custom .writeZero "failed to write the buffered data"), b :: bs)
    | .ok (n + 1) => passOn (bs.drop n)
termination_by bytes => bytes.length
decreasing_by
  simp only [List.length_drop, List.length_cons]
  omega

/-- Passes on what is held; after a failure the rest stays held. -/
def drain : StreamT (WriteBuffer ω) m Unit :=
  ExceptT.mk fun b => do
    let ((result, held), inner) ← (passOn b.held).run b.inner
    pure (result, { b with inner, held })

def write (bytes : List Byte) : StreamT (WriteBuffer ω) m Nat := do
  let b ← get
  if b.capacity < b.held.length + bytes.length then drain
  if b.capacity ≤ bytes.length then onInner (Writable.write bytes)
  else
    modify fun b => { b with held := b.held ++ bytes }
    return bytes.length

def flush : StreamT (WriteBuffer ω) m Unit := do
  drain
  onInner Writable.flush

def shutdown : StreamT (WriteBuffer ω) m Unit := do
  drain
  onInner Writable.shutdown

end WriteBuffer

instance {m : Type → Type} [Monad m] {ω : Type} [Writable ω m] : Writable (WriteBuffer ω) m where
  write := WriteBuffer.write
  flush := WriteBuffer.flush
  shutdown := WriteBuffer.shutdown

end VolumeFS
