import VolumeFS.Stream.Cursor
import VolumeFS.Status
import VolumeFS.Table
import VolumeFS.Text.Names
import VolumeFS.Volume.Key

/-!
# Volumes

A volume is a table of entries by key, with the extended attributes in a table
of their own. Each operation acts on one entry, except that a rename takes
along all that lies below; it either gives the volume afterwards or says why
nothing changed.
-/

set_option autoImplicit false

namespace VolumeFS

namespace Volume

inductive Content where
  | file (data : List Byte)
  | directory
  deriving DecidableEq, Repr, Inhabited

def Content.isDirectory : Content → Bool
  | .file _ => false
  | .directory => true

def Content.length : Content → Nat
  | .file data => data.length
  | .directory => 0

structure Entry where
  content : Content
  mode : UInt32
  uid : UInt32
  gid : UInt32
  deriving DecidableEq, Repr, Inhabited

structure Stat where
  length : UInt64
  isDirectory : Bool
  mode : UInt32
  uid : UInt32
  gid : UInt32
  deriving DecidableEq, Repr, Inhabited

def Entry.stat (e : Entry) : Stat :=
  ⟨UInt64.ofNat e.content.length, e.content.isDirectory, e.mode, e.uid, e.gid⟩

end Volume

open Volume

structure Volume where
  name : String
  entries : Table Key Entry
  /-- Extended attributes by entry and name. -/
  attributes : Table (Key × String) String
  /-- The owner and the group of new entries. -/
  owner : UInt32 × UInt32
  capacity : UInt64
  /-- Whether every rename is refused. -/
  refusesRenames : Bool
  deriving Repr, Inhabited

namespace Volume

def newEntry (v : Volume) (content : Content) (mode : UInt32) : Entry :=
  ⟨content, mode, v.owner.1, v.owner.2⟩

def empty (name : String) (uid gid : UInt32) : Volume :=
  ⟨name, [(Key.root, ⟨.directory, 0o755, uid, gid⟩)], [], (uid, gid), 1073741824, false⟩

def find? (v : Volume) (k : Key) : Option Entry :=
  v.entries.lookup k

def stat? (v : Volume) (k : Key) : Option Stat :=
  (v.find? k).map Entry.stat

def contents? (v : Volume) (k : Key) : Option (List Byte) :=
  match v.find? k with
  | some ⟨.file data, _, _, _⟩ => some data
  | _ => none

def hasBelow (v : Volume) (k : Key) : Bool :=
  v.entries.any fun entry => k.isBelow entry.1

/-- Refuses a key that nothing can be put at, for want of a directory above it. -/
def checkParent (v : Volume) (parent? : Option Key) (orphan : Fault) : Except Fault Unit :=
  match parent? with
  | none => .error orphan
  | some parent =>
    match v.find? parent with
    | some ⟨.directory, _, _, _⟩ => .ok ()
    | some ⟨.file _, _, _, _⟩ => .error (.notADirectory parent.text)
    | none => .error (.notFound parent.text)

def add (k : Key) (content : Content) (mode : UInt32) (v : Volume) : Except Fault Volume := do
  if (v.find? k).isSome then throw (.alreadyExists k.text)
  v.checkParent k.parent? (.alreadyExists k.text)
  return { v with entries := Table.set k (v.newEntry content mode) v.entries }

def createFile (k : Key) (v : Volume) : Except Fault Volume :=
  v.add k (.file []) 0o644

def makeDirectory (k : Key) (v : Volume) : Except Fault Volume :=
  v.add k .directory 0o755

/-- Removes a file or an empty directory together with its attributes. -/
def delete (k : Key) (v : Volume) : Except Fault Volume := do
  if k.isRoot then throw (.invalidArgument "cannot remove root")
  match v.find? k with
  | none => throw (.notFound k.text)
  | some e =>
    if e.content.isDirectory && v.hasBelow k then throw (.directoryNotEmpty k.text)
    return { v with
      entries := Table.erase k v.entries
      attributes := v.attributes.filter fun entry => entry.1.1 ≠ k }

/-- Moves an entry and all that lies below it to a free key outside of it. -/
def rename (source target : Key) (v : Volume) : Except Fault Volume := do
  if v.refusesRenames then throw (.backend s!"rename of {source.text} refused")
  if (v.find? source).isNone then throw (.notFound source.text)
  if (v.find? target).isSome then throw (.alreadyExists target.text)
  if source.isBelow target then
    throw (.invalidArgument s!"cannot move {source.text} into itself")
  v.checkParent target.parent? (.alreadyExists "/")
  return { v with entries := v.entries.map fun (k, e) => (Key.moved source target k, e) }

def list (v : Volume) (k : Key) : Except Fault (List String) :=
  match v.find? k with
  | some ⟨.directory, _, _, _⟩ =>
    .ok (Text.sortedNames (v.entries.filterMap fun entry => k.nameIn? entry.1))
  | some ⟨.file _, _, _, _⟩ => .error (.notADirectory k.text)
  | none => .error (.notFound k.text)

def alter (k : Key) (change : Entry → Entry) (v : Volume) : Except Fault Volume :=
  match v.find? k with
  | some e => .ok { v with entries := Table.set k (change e) v.entries }
  | none => .error (.notFound k.text)

def chmod (k : Key) (mode : UInt32) (v : Volume) : Except Fault Volume :=
  v.alter k fun e => { e with mode := mode &&& 0o7777 }

/-- The number in 32 bits, or the old one if it is negative. -/
def chosenId (old : UInt32) (id : Int) : UInt32 :=
  if id < 0 then old else UInt32.ofNat id.toNat

/-- Sets owner and group; a negative number leaves them as they are. -/
def chown (k : Key) (uid gid : Int) (v : Volume) : Except Fault Volume :=
  v.alter k fun e => { e with uid := chosenId e.uid uid, gid := chosenId e.gid gid }

def readable (v : Volume) (k : Key) : Except Fault (List Byte) :=
  match v.find? k with
  | some ⟨.file data, _, _, _⟩ => .ok data
  | some ⟨.directory, _, _, _⟩ => .error (.isADirectory k.text)
  | none => .error (.notFound k.text)

def space (v : Volume) : Space :=
  let used := v.entries.foldl (fun sum entry => sum + entry.2.content.length) 0
  ⟨v.capacity, UInt64.ofNat used, UInt64.ofNat (v.capacity.toNat - used)⟩

def attributeOf (v : Volume) (k : Key) (name : String) : Except Fault (Option String) :=
  if (v.find? k).isSome then .ok (v.attributes.lookup (k, name)) else .error (.notFound k.text)

/-- Sets an extended attribute, whether or not there is an entry. -/
def setAttribute (k : Key) (name value : String) (v : Volume) : Volume :=
  { v with attributes := Table.set (k, name) value v.attributes }

/-- The bytes after some were written over them at an offset; a gap is filled with zeros. -/
def overwrite (data : List Byte) (offset : Nat) (bytes : List Byte) : List Byte :=
  let padded := data ++ List.replicate (offset + bytes.length - data.length) 0
  padded.take offset ++ bytes ++ padded.drop (offset + bytes.length)

def longest : Nat := 0x7fffffffffffffff

def gone (k : Key) : IoError := .custom .notFound k.text

def tooLong : IoError := .custom .outOfMemory "capacity overflow"

def writeAt (k : Key) (offset : Nat) (bytes : List Byte) (v : Volume) : Except IoError Volume :=
  match v.find? k with
  | some ⟨.file data, mode, uid, gid⟩ =>
    if longest < offset + bytes.length then .error tooLong
    else .ok { v with
      entries := Table.set k ⟨.file (overwrite data offset bytes), mode, uid, gid⟩ v.entries }
  | _ => .error (gone k)

end Volume

end VolumeFS
