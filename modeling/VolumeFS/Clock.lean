/-!
# Waiting

Effects in which one can wait. The virtual clock adds up the time instead of
letting it pass.
-/

set_option autoImplicit false

namespace VolumeFS

class Clock (m : Type → Type) where
  /-- Waits for so many milliseconds. -/
  pause : Nat → m Unit

structure VirtualClock where
  elapsed : Nat
  deriving DecidableEq, Repr, Inhabited

instance {m : Type → Type} [MonadStateOf VirtualClock m] : Clock m where
  pause time := modifyThe VirtualClock fun c => ⟨c.elapsed + time⟩

end VolumeFS
