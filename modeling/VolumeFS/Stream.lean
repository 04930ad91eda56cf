import VolumeFS.Fault.Io
import VolumeFS.Offset

/-!
# Streams of bytes

A stream is a state `σ` on which reading, writing and seeking act. An action
may fail, and the state after the failure stays the stream's state. Streams of
different kinds share one interface, so that buffers and counters can be put
around any of them.
-/

set_option autoImplicit false

namespace VolumeFS

abbrev StreamT (σ : Type) (m : Type → Type) := ExceptT IoError (StateT σ m)

/-- A place in a stream: counted from its start, from where it is, or from its end. -/
inductive SeekFrom where
  | start (offset : UInt64)
  | current (distance : Int)
  | stop (distance : Int)
  deriving DecidableEq, Repr, Inhabited

class Readable (ρ : Type) (m : Type → Type) where
  /-- Up to so many bytes; none at the end. -/
  read : Nat → StreamT ρ m (List Byte)
  /-- Moves and gives the new place, counted from the start. -/
  seek : SeekFrom → StreamT ρ m UInt64

class Writable (ω : Type) (m : Type → Type) where
  /-- Takes some of the bytes, from the first on, and gives their number. -/
  write : List Byte → StreamT ω m Nat
  flush : StreamT ω m Unit
  shutdown : StreamT ω m Unit

namespace Stream

variable {m : Type → Type} [Monad m] {σ τ α : Type}

def onPart (get : σ → τ) (set : σ → τ → σ) (x : StreamT τ m α) : StreamT σ m α :=
  ExceptT.mk fun s => do
    let (result, part) ← x.run.run (get s)
    pure (result, set s part)

def act (x : StreamT σ m α) (s : σ) : m (Except IoError α × σ) :=
  x.run.run s

/-- Writes all of the bytes; `stuck` is the error where none of them is taken. -/
def writeAllOr [Writable σ m] (stuck : IoError) : List Byte → StreamT σ m Unit
  | [] => return
  | b :: bs => do
    match ← Writable.write (b :: bs) with
    | 0 => throw stuck
    | n + 1 => writeAllOr stuck (bs.drop n)
termination_by bytes => bytes.length
decreasing_by
  simp only [List.length_drop, List.length_cons]
  omega

def writeAll [Writable σ m] (bytes : List Byte) : StreamT σ m Unit :=
  writeAllOr (.bare .writeZero) bytes

def position [Readable σ m] : StreamT σ m UInt64 :=
  Readable.seek (.current 0)

def onEither (x : StreamT σ m α) (y : StreamT τ m α) : StreamT (σ ⊕ τ) m α :=
  ExceptT.mk fun
    | .inl s => do
      let (result, s) ← act x s
      pure (result, .inl s)
    | .inr s => do
      let (result, s) ← act y s
      pure (result, .inr s)

end Stream

instance {m : Type → Type} [Monad m] {ρ σ : Type} [Readable ρ m] [Readable σ m] :
    Readable (ρ ⊕ σ) m where
  read n := Stream.onEither (Readable.read n) (Readable.read n)
  seek place := Stream.onEither (Readable.seek place) (Readable.seek place)

instance {m : Type → Type} [Monad m] {ω υ : Type} [Writable ω m] [Writable υ m] :
    Writable (ω ⊕ υ) m where
  write bytes := Stream.onEither (Writable.write bytes) (Writable.write bytes)
  flush := Stream.onEither Writable.flush Writable.flush
  shutdown := Stream.onEither Writable.shutdown Writable.shutdown

end VolumeFS
