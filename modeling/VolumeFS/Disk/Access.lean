import VolumeFS.Disk

/-!
# Reaching a disk

`DiskAccess` lists the calls of the operating system that a mounted file system
makes, each of them one step. Effects that carry a `Disk` as their state offer
them by acting on it.
-/

set_option autoImplicit false

namespace VolumeFS

namespace Disk

structure Reader where
  handle : Handle
  deriving DecidableEq, Repr, Inhabited

structure Writer where
  handle : Handle
  deriving DecidableEq, Repr, Inhabited

end Disk

open Disk

class DiskAccess (m : Type → Type) extends Readable Reader m, Writable Writer m where
  metadata : String → ExceptT IoError m Metadata
  createDirectory : String → ExceptT IoError m Unit
  readDirectory : String → ExceptT IoError m (List String)
  removeFile : String → ExceptT IoError m Unit
  removeDirectory : String → ExceptT IoError m Unit
  rename : String → String → ExceptT IoError m Unit
  setMode : String → UInt32 → ExceptT IoError m Unit
  openReader : String → ExceptT IoError m Reader
  /-- Opens a file for writing, emptied if it is there and made if it is not. -/
  openWriter : String → ExceptT IoError m Writer
  space : String → ExceptT IoError m Space
  /-- No walk down the tree meets more directories than this. -/
  reach : m Nat

namespace Disk

variable {m : Type → Type} [Monad m] [MonadStateOf Disk m]

def look {α : Type} (f : Disk → Except IoError α) : ExceptT IoError m α :=
  ExceptT.mk do return f (← getThe Disk)

/-- Changes the disk, or leaves it as it is where the change is refused. -/
def act {α : Type} (f : Disk → Except IoError (α × Disk)) : ExceptT IoError m α :=
  ExceptT.mk <| modifyGetThe Disk fun d =>
    match f d with
    | .ok (a, d) => (.ok a, d)
    | .error e => (.error e, d)

def update (f : Disk → Except IoError Disk) : ExceptT IoError m Unit :=
  act fun d => (f d).map fun d => ((), d)

def largestOffset : Int := 0x7fffffffffffffff

namespace Reader

def read (n : Nat) : StreamT Reader m (List Byte) := do
  let r ← get
  match r.handle.number? with
  | none => throw isDirectory
  | some number =>
    let body := (← (getThe Disk : m Disk)).body number
    let bytes := (body.data.drop r.handle.position.toNat).take (min n transferLimit)
    let position := UInt64.ofNat (r.handle.position.toNat + bytes.length)
    set (Reader.mk { r.handle with position })
    return bytes

/-- The place a seek leads to, in numbers that may be out of range. -/
def target (r : Reader) (length : Nat) : SeekFrom → Int
  | .start offset => offset.toNat
  | .current distance => r.handle.position.toNat + distance
  | .stop distance => length + distance

def seek (place : SeekFrom) : StreamT Reader m UInt64 := do
  let r ← get
  let disk ← (getThe Disk : m Disk)
  let length := (r.handle.number?.map fun number => (disk.body number).data.length).getD 0
  let target := r.target length place
  if target < 0 ∨ largestOffset < target then throw invalid
  let position := UInt64.ofNat target.toNat
  set (Reader.mk { r.handle with position })
  return position

end Reader

def Writer.write (bytes : List Byte) : StreamT Writer m Nat := do
  let w ← get
  let bytes := bytes.take transferLimit
  let offset := w.handle.position.toNat
  match w.handle.number? with
  | none => throw isDirectory
  | some number =>
    (modifyThe Disk fun d => { d with
      bodies := d.bodies.modify number fun b => { b with data := overwrite b.data offset bytes } }
      : m Unit)
    set (Writer.mk { w.handle with position := UInt64.ofNat (offset + bytes.length) })
    return bytes.length

end Disk

instance {m : Type → Type} [Monad m] [MonadStateOf Disk m] : DiskAccess m where
  read := Reader.read
  seek := Reader.seek
  write := Writer.write
  flush := return
  shutdown := return
  metadata path := look fun d => d.metadata path
  createDirectory path := update (createDirectory path)
  readDirectory path := look fun d => d.readDirectory path
  removeFile path := update (removeFile path)
  removeDirectory path := update (removeDirectory path)
  rename source target := update (rename source target)
  setMode path mode := update (setMode path mode)
  openReader path := look fun d => (d.openReader path).map Reader.mk
  openWriter path := act fun d => (openWriter path d).map fun (handle, d) => (⟨handle⟩, d)
  space path := look fun d => d.space path
  reach := do
    let d ← getThe Disk
    return Nat.pow (d.nodes.length + 1) pathLimit

end VolumeFS
