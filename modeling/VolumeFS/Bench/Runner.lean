import VolumeFS.Bench.ShellText
import VolumeFS.Command.Shell

/-!
# A bench to run commands on

Commands belong to the host, and a file system takes whatever runs them. This is
one thing that does, to try out how commands are called and their answers read:
it knows the programs that need nothing but their arguments, and `sh -c` with a
list of them. What they write is bytes, read as text with replacements. Nothing
outside of the bench is built on it.
-/

set_option autoImplicit false

namespace VolumeFS.Bench

def hasNul : IoError := .custom .invalidInput "nul byte found in provided data"

def outcome (name : String) (args : List String) : Except IoError Outcome := do
  let program ← programName name
  let known := match program, args with
    | "sh", "-c" :: text :: args => some (runText name text args)
    | "sh", ["-c"] => some (.failed 2 s!"{name}: 0: -c requires an argument")
    | "sh", script :: _ => some (.failed 2 s!"{name}: 0: cannot open {script}: No such file")
    | _, _ => program? program name args
  match known with
  | some outcome => return outcome
  | none => throw .noEntry

def run (name : String) (args : List String) : Except IoError CommandOutput :=
  if (name :: args).any (·.toList.any (·.toNat = 0)) then .error hasNul
  else (outcome name args).map fun o =>
    ⟨o.code, Text.ofBytesLossy o.stdout, Text.ofBytesLossy o.stderr⟩

def exec (name : String) (args : List String) (tolerated : List Int) : Except Fault String :=
  letI : Commands Id := ⟨run⟩
  (Shell.exec name args tolerated : ExceptT Fault Id String).run

end VolumeFS.Bench
