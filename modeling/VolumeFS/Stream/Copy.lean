import VolumeFS.Fault
import VolumeFS.Stream

/-!
# Copying streams

Within file system operations an error of a stream becomes a fault. Copying
reads pieces of a fixed size until one is empty and writes each of them whole.
-/

set_option autoImplicit false

namespace VolumeFS.Stream

variable {m : Type → Type} [Monad m] {σ ρ ω α : Type}

/-- Runs an action on a stream held as a value; its error is a fault. -/
def orFault (x : StreamT σ m α) (s : σ) : ExceptT Fault m (α × σ) :=
  ExceptT.mk do
    match ← act x s with
    | (.ok a, s) => return .ok (a, s)
    | (.error e, _) => return .error (.io e)

def pieceSize : Nat := 8192

/-- Copies what is left of a stream that ends within so many pieces, and flushes. -/
def copy [Readable ρ m] [Writable ω m] : Nat → ρ → ω → ExceptT Fault m (ρ × ω)
  | 0, _, _ => throw (.other "the stream has no end")
  | fuel + 1, r, w => do
    let (piece, r) ← orFault (Readable.read pieceSize) r
    if piece.isEmpty then
      let (_, w) ← orFault Writable.flush w
      return (r, w)
    else
      let stuck := .custom .writeZero "write zero byte into writer"
      let (_, w) ← orFault (writeAllOr stuck piece) w
      copy fuel r w

end VolumeFS.Stream
