import VolumeFS.Command

/-!
# Scripted commands

A script answers each program with what was laid down for it and keeps a list
of all calls. Answers meant for one call come first, in order; after them comes
the standing answer. A program without any answer cannot be started.
-/

set_option autoImplicit false

namespace VolumeFS

structure Script where
  /-- Answers for one call each, the next ones first. -/
  once : List (String × CommandOutput)
  /-- Standing answers, the latest first. -/
  always : List (String × CommandOutput)
  /-- The calls so far, the latest first. -/
  made : List (String × List String)
  deriving Repr, Inhabited

namespace Script

def empty : Script := ⟨[], [], []⟩

/-- Lays down the standing answer of a program. -/
def respond (program : String) (output : CommandOutput) (s : Script) : Script :=
  { s with always := (program, output) :: s.always }

def respondOnce (program : String) (output : CommandOutput) (s : Script) : Script :=
  { s with once := s.once ++ [(program, output)] }

def calls (s : Script) : List (String × List String) :=
  s.made.reverse

def call (program : String) (args : List String) (s : Script) :
    Except IoError CommandOutput × Script :=
  let noted := { s with made := (program, args) :: s.made }
  match s.once.find? (·.1 == program) with
  | some (_, output) =>
    (.ok output, { noted with once := s.once.eraseP (·.1 == program) })
  | none =>
    match s.always.lookup program with
    | some output => (.ok output, noted)
    | none => (.error (.custom .notFound s!"{program}: command not found"), noted)

end Script

instance {m : Type → Type} [MonadStateOf Script m] : Commands m where
  run program args := modifyGet fun s : Script => s.call program args

end VolumeFS
