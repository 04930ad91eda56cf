import VolumeFS.Fault.Io

/-!
# Faults of file system operations

A `Fault` says why an operation did not happen. Its text is a function of the
cause. Errors of files and commands become faults by `Fault.ofIo`, which keeps
the kinds a caller tells apart and names the path; `Fault.toIo` goes back.
-/

set_option autoImplicit false

namespace VolumeFS

inductive Fault where
  /-- Settings that are missing or wrong, or a mount that failed. -/
  | config (reason : String)
  | notFound (path : String)
  | alreadyExists (path : String)
  | directoryNotEmpty (path : String)
  | notADirectory (path : String)
  | isADirectory (path : String)
  | unsupported (what : String)
  | invalidPath (reason : String)
  | invalidArgument (reason : String)
  /-- A command that ended with an unexpected exit code, or by a signal. -/
  | process (command : String) (code : Option Int) (stderr : String)
  /-- A recursive delete that stopped at its first failure. -/
  | partialDelete (path failed : String) (undeleted : List String) (cause : Fault)
  /-- An error reported by the storage behind the file system. -/
  | backend (reason : String)
  | io (error : IoError)
  | other (reason : String)
  deriving Repr, Inhabited

namespace Fault

/-- An exit code as shown to people; a process ended by a signal has none. -/
def exitText : Option Int → String
  | some code => s!"Some({code})"
  | none => "None"

def message : Fault → String
  | .config reason => s!"configuration error: {reason}"
  | .notFound path => s!"not found: {path}"
  | .alreadyExists path => s!"already exists: {path}"
  | .directoryNotEmpty path => s!"directory not empty: {path}"
  | .notADirectory path => s!"not a directory: {path}"
  | .isADirectory path => s!"is a directory: {path}"
  | .unsupported what => s!"not supported: {what}"
  | .invalidPath reason => s!"invalid path: {reason}"
  | .invalidArgument reason => s!"invalid argument: {reason}"
  | .process command code stderr =>
    "command `" ++ command ++ "` failed (exit code " ++ exitText code ++ "): " ++ stderr
  | .partialDelete path failed undeleted _ =>
    s!"delete of {path} stopped at {failed}; {undeleted.length} entries left undeleted"
  | .backend reason => s!"backend error: {reason}"
  | .io error => s!"I/O error: {error.message}"
  | .other reason => reason

def causeText? : Fault → Option String
  | .partialDelete _ _ _ cause => some cause.message
  | .io error => some error.message
  | _ => none

def isNotFound : Fault → Bool
  | .notFound _ => true
  | _ => false

def ofIo (error : IoError) (path : String) : Fault :=
  match error.kind with
  | .notFound => .notFound path
  | .alreadyExists => .alreadyExists path
  | .directoryNotEmpty => .directoryNotEmpty path
  | .notADirectory => .notADirectory path
  | .isADirectory => .isADirectory path
  | kind => .io (.custom kind s!"{path}: {error.message}")

def toIo : Fault → IoError
  | .notFound path => .custom .notFound path
  | .alreadyExists path => .custom .alreadyExists path
  | .directoryNotEmpty path => .custom .directoryNotEmpty path
  | .notADirectory path => .custom .notADirectory path
  | .isADirectory path => .custom .isADirectory path
  | .unsupported what => .custom .unsupported what
  | .invalidPath reason => .custom .invalidInput reason
  | .invalidArgument reason => .custom .invalidInput reason
  | .io error => error
  | fault => .custom .other fault.message

end Fault

/-- Runs an action and gives its outcome as a value, so that a fault does not end what follows. -/
def attempt {m : Type → Type} [Monad m] {α : Type} (x : ExceptT Fault m α) :
    ExceptT Fault m (Except Fault α) :=
  ExceptT.mk (x.run >>= fun outcome => pure (.ok outcome))

/-- What follows a call runs on what the call returned. -/
theorem bind_eq_ok {ε α β : Type} {x : Except ε α} {f : α → Except ε β} {b : β} :
    x >>= f = .ok b ↔ ∃ a, x = .ok a ∧ f a = .ok b := by
  cases x with
  | error e => simp [bind, Except.bind]
  | ok a => simp [bind, Except.bind]

end VolumeFS
