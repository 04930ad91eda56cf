import VolumeFS.Fault

/-!
# External commands

A command is a program and its arguments; nothing is ever read as a line of
shell text. Whoever runs commands either says how one ended and what it wrote,
or that it could not be started at all.
-/

set_option autoImplicit false

namespace VolumeFS

structure CommandOutput where
  /-- The exit code; a process ended by a signal has none. -/
  code : Option Int
  stdout : String
  stderr : String
  deriving DecidableEq, Repr, Inhabited

class Commands (m : Type → Type) where
  /-- Runs a program with its arguments; the error is that it could not be started. -/
  run : String → List String → m (Except IoError CommandOutput)

end VolumeFS
