import VolumeFS.Volume

/-!
# Reaching a volume

`VolumeAccess` lists what a client may ask of a volume, one entry at a time.
Whatever offers these operations can stand behind a client; effects that carry
a `Volume` as their state offer them by acting on it.
-/

set_option autoImplicit false

namespace VolumeFS

namespace Volume

/-- A file open for reading: its bytes as they were when it was opened. -/
structure Reader where
  cursor : Cursor
  deriving DecidableEq, Repr, Inhabited

structure Writer where
  key : Key
  position : UInt64
  deriving DecidableEq, Repr, Inhabited

end Volume

open Volume

class VolumeAccess (m : Type → Type) extends Readable Reader m, Writable Writer m where
  stat : Key → ExceptT Fault m (Option Stat)
  /-- Makes an empty file where nothing is. -/
  createFile : Key → ExceptT Fault m Unit
  /-- Makes one directory where nothing is. -/
  makeDirectory : Key → ExceptT Fault m Unit
  /-- Removes a file or an empty directory. -/
  delete : Key → ExceptT Fault m Unit
  rename : Key → Key → ExceptT Fault m Unit
  list : Key → ExceptT Fault m (List String)
  chmod : Key → UInt32 → ExceptT Fault m Unit
  /-- Sets owner and group; a negative number leaves them as they are. -/
  chown : Key → Int → Int → ExceptT Fault m Unit
  /-- Opens a file for reading from its start. -/
  openReader : Key → ExceptT Fault m Reader
  /-- Opens a file for writing from its start, with its bytes kept. -/
  openWriter : Key → ExceptT Fault m Writer
  seekWriter : SeekFrom → StreamT Writer m UInt64
  space : ExceptT Fault m Space
  attributeOf : Key → String → ExceptT Fault m (Option String)
  /-- No walk down the tree meets more directories than this. -/
  reach : m Nat

namespace Volume

variable {m : Type → Type} [Monad m]

def requireStat [VolumeAccess m] (k : Key) : ExceptT Fault m Stat := do
  match ← VolumeAccess.stat k with
  | some st => return st
  | none => throw (.notFound k.text)

variable [MonadStateOf Volume m]

def look {α : Type} (f : Volume → Except Fault α) : ExceptT Fault m α :=
  ExceptT.mk do return f (← getThe Volume)

def update (f : Volume → Except Fault Volume) : ExceptT Fault m Unit :=
  ExceptT.mk <| modifyGetThe Volume fun v =>
    match f v with
    | .ok v => (.ok (), v)
    | .error fault => (.error fault, v)

namespace Writer

def write (bytes : List Byte) : StreamT Writer m Nat := do
  let w ← get
  let done ← (modifyGetThe Volume fun v =>
    match v.writeAt w.key w.position.toNat bytes with
    | .ok v => (.ok (), v)
    | .error e => (.error e, v) : m (Except IoError Unit))
  match done with
  | .error e => throw e
  | .ok () =>
    set { w with position := w.position + UInt64.ofNat bytes.length }
    return bytes.length

def target? (w : Writer) (length : Nat) : SeekFrom → Option UInt64
  | .start offset => some offset
  | .current distance => Offset.moved? w.position.toNat distance
  | .stop distance => Offset.moved? length distance

def length (place : SeekFrom) : StreamT Writer m Nat := do
  let w ← get
  match place with
  | .stop _ =>
    match (← (getThe Volume : m Volume)).contents? w.key with
    | some data => return data.length
    | none => throw (gone w.key)
  | _ => return 0

def seek (place : SeekFrom) : StreamT Writer m UInt64 := do
  let length ← length place
  match (← get).target? length place with
  | some position =>
    modify fun w => { w with position }
    return position
  | none => throw (.custom .invalidInput "seek before start of file")

end Writer

end Volume

instance {m : Type → Type} [Monad m] [MonadStateOf Volume m] : VolumeAccess m where
  read n := Stream.onPart Reader.cursor (fun _ cursor => ⟨cursor⟩) (Readable.read n)
  seek place := Stream.onPart Reader.cursor (fun _ cursor => ⟨cursor⟩) (Readable.seek place)
  write := Writer.write
  flush := return
  shutdown := return
  stat k := look fun v => .ok (v.stat? k)
  createFile k := update (createFile k)
  makeDirectory k := update (makeDirectory k)
  delete k := update (delete k)
  rename source target := update (rename source target)
  list k := look fun v => v.list k
  chmod k mode := update (chmod k mode)
  chown k uid gid := update (chown k uid gid)
  openReader k := look fun v => (v.readable k).map fun data => ⟨.ofBytes data⟩
  openWriter k := look fun v => (v.readable k).map fun _ => ⟨k, 0⟩
  seekWriter := Writer.seek
  space := look fun v => .ok v.space
  attributeOf k name := look fun v => v.attributeOf k name
  reach := return (← getThe Volume).entries.length

end VolumeFS
