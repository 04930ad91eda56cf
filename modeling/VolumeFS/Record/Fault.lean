import VolumeFS.Fault
import VolumeFS.Record.Form

/-!
# Faults as records

A fault is written with the name of its cause, the text shown for it and what
else it carries, and read from the name of its cause and its parts. The outcome
of an operation is a table with the value under `ok`, or what the fault is
written as.
-/

set_option autoImplicit false

namespace VolumeFS

open Record

def IoKind.name : IoKind → String
  | .addrInUse => "AddrInUse"
  | .addrNotAvailable => "AddrNotAvailable"
  | .alreadyExists => "AlreadyExists"
  | .argumentListTooLong => "ArgumentListTooLong"
  | .brokenPipe => "BrokenPipe"
  | .connectionAborted => "ConnectionAborted"
  | .connectionRefused => "ConnectionRefused"
  | .connectionReset => "ConnectionReset"
  | .crossesDevices => "CrossesDevices"
  | .deadlock => "Deadlock"
  | .directoryNotEmpty => "DirectoryNotEmpty"
  | .executableFileBusy => "ExecutableFileBusy"
  | .fileTooLarge => "FileTooLarge"
  | .filesystemLoop => "FilesystemLoop"
  | .hostUnreachable => "HostUnreachable"
  | .inProgress => "InProgress"
  | .inputOutputError => "InputOutputError"
  | .interrupted => "Interrupted"
  | .invalidData => "InvalidData"
  | .invalidFilename => "InvalidFilename"
  | .invalidInput => "InvalidInput"
  | .isADirectory => "IsADirectory"
  | .networkDown => "NetworkDown"
  | .networkUnreachable => "NetworkUnreachable"
  | .notADirectory => "NotADirectory"
  | .notConnected => "NotConnected"
  | .notFound => "NotFound"
  | .notSeekable => "NotSeekable"
  | .other => "Other"
  | .outOfMemory => "OutOfMemory"
  | .permissionDenied => "PermissionDenied"
  | .quotaExceeded => "QuotaExceeded"
  | .readOnlyFilesystem => "ReadOnlyFilesystem"
  | .resourceBusy => "ResourceBusy"
  | .staleNetworkFileHandle => "StaleNetworkFileHandle"
  | .storageFull => "StorageFull"
  | .timedOut => "TimedOut"
  | .tooManyLinks => "TooManyLinks"
  | .tooManyOpenFiles => "TooManyOpenFiles"
  | .uncategorized => "Uncategorized"
  | .unexpectedEof => "UnexpectedEof"
  | .unsupported => "Unsupported"
  | .wouldBlock => "WouldBlock"
  | .writeZero => "WriteZero"

def IoKind.all : List IoKind :=
  [.addrInUse, .addrNotAvailable, .alreadyExists, .argumentListTooLong, .brokenPipe,
   .connectionAborted, .connectionRefused, .connectionReset, .crossesDevices, .deadlock,
   .directoryNotEmpty, .executableFileBusy, .fileTooLarge, .filesystemLoop, .hostUnreachable,
   .inProgress, .inputOutputError, .interrupted, .invalidData, .invalidFilename, .invalidInput,
   .isADirectory, .networkDown, .networkUnreachable, .notADirectory, .notConnected, .notFound,
   .notSeekable, .other, .outOfMemory, .permissionDenied, .quotaExceeded, .readOnlyFilesystem,
   .resourceBusy, .staleNetworkFileHandle, .storageFull, .timedOut, .tooManyLinks,
   .tooManyOpenFiles, .uncategorized, .unexpectedEof, .unsupported, .wouldBlock, .writeZero]

def IoKind.named? (name : String) : Option IoKind :=
  IoKind.all.find? (·.name == name)

instance : ToRecord IoKind := ⟨fun kind => .text kind.name⟩

instance : ToRecord IoError where
  toRecord e := .table
    [entry "error" "io", entry "io_kind" e.kind, entry "message" e.message]

/-- An error of the system by its number, of a kind alone, or of a kind with a message. -/
def IoError.ofRecord? (v : Value) : Option IoError := do
  match v.field? "os" with
  | some code => return .os (← code.int?)
  | none =>
    let kind ← IoKind.named? (← (← v.field? "kind").text?)
    match v.field? "message" with
    | some message => return .custom kind (← message.text?)
    | none => return .bare kind

namespace Fault

def kindName : Fault → String
  | .config _ => "Config"
  | .notFound _ => "NotFound"
  | .alreadyExists _ => "AlreadyExists"
  | .directoryNotEmpty _ => "DirectoryNotEmpty"
  | .notADirectory _ => "NotADirectory"
  | .isADirectory _ => "IsADirectory"
  | .unsupported _ => "Unsupported"
  | .invalidPath _ => "InvalidPath"
  | .invalidArgument _ => "InvalidArgument"
  | .process .. => "Process"
  | .partialDelete .. => "PartialDelete"
  | .backend _ => "Backend"
  | .io _ => "Io"
  | .other _ => "Other"

def heading (f : Fault) : List (String × Value) :=
  [entry "error" f.kindName, entry "message" f.message]

def parts : Fault → List (String × Value)
  | .process command code stderr =>
    [entry "command" command, entry "code" code, entry "stderr" stderr]
  | .partialDelete path failed undeleted cause =>
    [entry "path" path, entry "failed" failed, entry "undeleted" undeleted,
     ("source", .table (cause.heading ++ parts cause))]
  | .io error => [entry "io_kind" error.kind]
  | _ => []

def ofText? (name text : String) : Option Fault :=
  [Fault.config text, .notFound text, .alreadyExists text, .directoryNotEmpty text,
   .notADirectory text, .isADirectory text, .unsupported text, .invalidPath text,
   .invalidArgument text, .backend text, .other text].find? (·.kindName == name)

def textIn? (v : Value) (name : String) : Option String :=
  (v.field? name).bind Value.text?

def ofRecord? (v : Value) : Option Fault := do
  match ← textIn? v "kind" with
  | "Io" => return .io (← IoError.ofRecord? (← v.field? "io"))
  | "Process" =>
    return .process (← textIn? v "command") (← optional? Value.int? (v.field? "code"))
      ((textIn? v "stderr").getD "")
  | "PartialDelete" =>
    let undeleted ← match v.field? "undeleted" with
      | some names => (← names.list?).mapM Value.text?
      | none => pure []
    match _h : v.field? "source" with
    | some source =>
      return .partialDelete (← textIn? v "path") (← textIn? v "failed") undeleted
        (← ofRecord? source)
    | none => none
  | name => ofText? name ((textIn? v "message").getD "")
termination_by sizeOf v
decreasing_by exact Value.sizeOf_lt_of_field? _h

end Fault

instance : ToRecord Fault := ⟨fun f => .table (f.heading ++ f.parts)⟩

variable {ε α : Type} [ToRecord ε] [ToRecord α]

instance : ToRecord (Except ε α) where
  toRecord
    | .ok a => .table [entry "ok" a]
    | .error e => ToRecord.toRecord e

end VolumeFS
