import VolumeFS.Stream

/-!
# Bytes collected in memory

A sink keeps what is written to it. It may take only so many bytes at a time,
and it may be full once it holds so many.
-/

set_option autoImplicit false

namespace VolumeFS

structure Sink where
  data : List Byte
  /-- The most bytes taken at a time. -/
  accept : Option Nat
  /-- How many bytes held make it full. -/
  failAfter : Option Nat
  isShutDown : Bool
  deriving DecidableEq, Repr, Inhabited

namespace Sink

def empty (accept failAfter : Option Nat) : Sink := ⟨[], accept, failAfter, false⟩

def isFull (s : Sink) : Bool :=
  s.failAfter.any (· ≤ s.data.length)

def taken (s : Sink) (bytes : List Byte) : List Byte :=
  match s.accept with
  | some n => bytes.take n
  | none => bytes

end Sink

instance {m : Type → Type} [Monad m] : Writable Sink m where
  write bytes := do
    let s ← get
    if s.isFull then throw (.custom .storageFull "sink full")
    let taken := s.taken bytes
    set { s with data := s.data ++ taken }
    return taken.length
  flush := return
  shutdown := modify fun s => { s with isShutDown := true }

end VolumeFS
