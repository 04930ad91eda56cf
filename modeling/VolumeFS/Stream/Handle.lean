import VolumeFS.Path.Inspect
import VolumeFS.Stream.Statistics

/-!
# Open files

What a file system gives out when a file is opened: a counted stream together
with the path of the file and, for reading, where its bytes come from.
-/

set_option autoImplicit false

namespace VolumeFS

inductive StreamSource where
  /-- The file under the mount point. -/
  | mount
  /-- A copy of the file on this host. -/
  | localReplica
  /-- The volume itself. -/
  | native
  deriving DecidableEq, Repr, Inhabited

def StreamSource.name : StreamSource → String
  | .mount => "mount"
  | .localReplica => "local_replica"
  | .native => "native"

def StreamSource.inspect : StreamSource → String
  | .mount => "Mount"
  | .localReplica => "LocalReplica"
  | .native => "Native"

structure InputStream (ρ : Type) where
  reader : Counted ρ
  source : StreamSource
  path : Path
  deriving DecidableEq, Repr, Inhabited

namespace InputStream

variable {m : Type → Type} [Monad m] [MonadStateOf Statistics m] {ρ : Type} [Readable ρ m]
  {α : Type}

def start (inner : ρ) (source : StreamSource) (path : Path) : InputStream ρ :=
  ⟨.start inner, source, path⟩

def bytesRead (s : InputStream ρ) : UInt64 := s.reader.count

def onReader (x : StreamT (Counted ρ) m α) : StreamT (InputStream ρ) m α :=
  Stream.onPart InputStream.reader (fun s reader => { s with reader }) x

def read (n : Nat) : StreamT (InputStream ρ) m (List Byte) :=
  onReader (Readable.read n)

def seek (place : SeekFrom) : StreamT (InputStream ρ) m UInt64 :=
  onReader (Readable.seek place)

def seekTo (offset : UInt64) : StreamT (InputStream ρ) m UInt64 :=
  seek (.start offset)

def position : StreamT (InputStream ρ) m UInt64 :=
  onReader Stream.position

def readAt (offset : UInt64) (n : Nat) : StreamT (InputStream ρ) m (List Byte) := do
  let _ ← seekTo offset
  read n

def inspect (s : InputStream ρ) : String :=
  Text.titled "FsInputStream"
    [("path", s.path.inspect), ("source", s.source.inspect),
     ("bytes_read", toString s.reader.count.toNat)]
    false

end InputStream

structure OutputStream (ω : Type) where
  writer : Counted ω
  path : Path
  deriving DecidableEq, Repr, Inhabited

namespace OutputStream

variable {m : Type → Type} [Monad m] [MonadStateOf Statistics m] {ω : Type} [Writable ω m]
  {α : Type}

def start (inner : ω) (path : Path) : OutputStream ω :=
  ⟨.start inner, path⟩

def bytesWritten (s : OutputStream ω) : UInt64 := s.writer.count

def onWriter (x : StreamT (Counted ω) m α) : StreamT (OutputStream ω) m α :=
  Stream.onPart OutputStream.writer (fun s writer => { s with writer }) x

def write (bytes : List Byte) : StreamT (OutputStream ω) m Nat :=
  onWriter (Writable.write bytes)

def writeAll (bytes : List Byte) : StreamT (OutputStream ω) m Unit :=
  onWriter (Stream.writeAll bytes)

def flush : StreamT (OutputStream ω) m Unit :=
  onWriter Writable.flush

def close : StreamT (OutputStream ω) m Unit :=
  onWriter Writable.shutdown

def inspect (s : OutputStream ω) : String :=
  Text.titled "FsOutputStream"
    [("path", s.path.inspect), ("bytes_written", toString s.writer.count.toNat)]
    false

end OutputStream

end VolumeFS
