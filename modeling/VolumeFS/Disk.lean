import VolumeFS.Status
import VolumeFS.Stream.Cursor
import VolumeFS.Table
import VolumeFS.Text.Blank
import VolumeFS.Text.Names
import VolumeFS.Text.Split
import VolumeFS.Text.Utf8

/-!
# Local disks

A disk is a table of nodes by their place, the list of names from the root.
Files hold the number of their bytes, so that a file stays readable through an
open handle after it was moved or removed. A path is walked name by name; a
symbolic link on the way is replaced by its target. What makes, moves or removes
an entry walks to the directory and looks at how the path ends there: with a
name, with dots, or at the root, and whether slashes come after the name. The
errors are those of the operating system.
-/

set_option autoImplicit false

namespace VolumeFS

namespace Disk

/-- The names from the root down to a node. -/
abbrev Place := List String

inductive Node where
  | directory (mode : UInt32)
  /-- A file, by the number of its bytes. -/
  | file (number : Nat)
  | link (target : String)
  deriving DecidableEq, Repr, Inhabited

def Node.isDirectory : Node → Bool
  | .directory _ => true
  | _ => false

structure Body where
  data : List Byte
  mode : UInt32
  deriving DecidableEq, Repr, Inhabited

structure Metadata where
  isDirectory : Bool
  length : UInt64
  deriving DecidableEq, Repr, Inhabited

end Disk

open Disk

structure Disk where
  nodes : Table Place Node
  /-- The bytes of all files there ever were, by number. -/
  bodies : List Body
  /-- Where relative paths start. -/
  current : Place
  capacity : UInt64
  deriving Repr, Inhabited

namespace Disk

/-- The system's error numbers. -/
def noEntry : IoError := .os 2
def taken : IoError := .os 17
def busy : IoError := .os 16
def notDirectory : IoError := .os 20
def isDirectory : IoError := .os 21
def invalid : IoError := .os 22
def nameTooLong : IoError := .os 36
def notEmpty : IoError := .os 39
def tooManyLinks : IoError := .os 40

/-- A path with a NUL in it never gets as far as the system. -/
def hasNul : IoError :=
  .custom .invalidInput "file name contained an unexpected NUL byte"

def linkLimit : Nat := 40

def nameLimit : Nat := 255

def pathLimit : Nat := 4095

def transferLimit : Nat := 2097152

def permissionBits (mode : UInt32) : UInt32 := mode &&& 0o7777

def ofDirectories (places : List Place) : Disk :=
  ⟨([] :: places).map fun place => (place, .directory 0o755), [], ["@here"], 1099511627776⟩

def node? (d : Disk) (place : Place) : Option Node :=
  d.nodes.lookup place

def parts (path : String) : List String :=
  (Text.fields '/' path.toList).map String.ofList

/-- Where a path leads: a node, or a free place in a directory. -/
structure Found where
  place : Place
  node? : Option Node
  deriving Repr, Inhabited

/-- Walks from a node along the parts; links on the way and at the end are followed. -/
def walk (d : Disk) (links : Nat) (place : Place) : List String → Except IoError Found
  | [] => .ok ⟨place, d.node? place⟩
  | name :: rest =>
    match d.node? place with
    | some (.directory _) =>
      if name = "" ∨ name = "." then walk d links place rest
      else if name = ".." then walk d links place.dropLast rest
      else if nameLimit < name.utf8ByteSize then .error nameTooLong
      else
        let next := place ++ [name]
        match d.node? next with
        | none => if rest.all (· = "") then .ok ⟨next, none⟩ else .error noEntry
        | some (.link target) =>
          match links with
          | 0 => .error tooManyLinks
          | links + 1 =>
            let start := if target.toList.head? = some '/' then [] else place
            walk d links start (parts target ++ rest)
        | some _ => walk d links next rest
    | none => .error noEntry
    | some _ => .error notDirectory
termination_by parts => (links, parts.length)

/-- Where the walk along a path starts, and the parts it goes along. -/
def route (d : Disk) (path : String) : Except IoError (Place × List String) :=
  if path.toList.any (·.toNat = 0) then .error hasNul
  else if path = "" then .error noEntry
  else if pathLimit < path.utf8ByteSize then .error nameTooLong
  else .ok (if path.toList.head? = some '/' then [] else d.current, parts path)

def resolve (d : Disk) (path : String) : Except IoError Found := do
  let (start, parts) ← d.route path
  d.walk linkLimit start parts

/-- The node a path leads to, links being followed, and its place. -/
def find (d : Disk) (path : String) : Except IoError (Place × Node) := do
  let found ← d.resolve path
  match found.node? with
  | some node => return (found.place, node)
  | none => throw noEntry

inductive Ending where
  /-- Without any part, at the root. -/
  | root
  | dot
  | dotDot
  /-- With a name, `bare` if no slash comes after it. -/
  | name (name : String) (bare : Bool)
  deriving DecidableEq, Repr, Inhabited

/-- The parts before the last one that is not empty, and how the path ends with that one. -/
def splitLast (parts : List String) : List String × Ending :=
  match parts.reverse.dropWhile (· = "") with
  | [] => ([], .root)
  | last :: before =>
    (before.reverse,
      if last = "." then .dot
      else if last = ".." then .dotDot
      else .name last (parts.getLast? = some last))

def parent (d : Disk) (path : String) : Except IoError (Place × Ending) := do
  let (start, parts) ← d.route path
  let (before, ending) := splitLast parts
  let found ← d.walk linkLimit start before
  match found.node? with
  | some (.directory _) => return (found.place, ending)
  | some _ => throw notDirectory
  | none => throw noEntry

/-- What has a name in a directory, not followed if it is a link. -/
def entry (d : Disk) (directory : Place) (name : String) : Except IoError Found :=
  if nameLimit < name.utf8ByteSize then .error nameTooLong
  else .ok ⟨directory ++ [name], d.node? (directory ++ [name])⟩

def body (d : Disk) (number : Nat) : Body :=
  d.bodies.getD number ⟨[], 0⟩

def metadata (d : Disk) (path : String) : Except IoError Metadata := do
  match ← d.find path with
  | (_, .file number) => return ⟨false, UInt64.ofNat (d.body number).data.length⟩
  | _ => return ⟨true, 0⟩

def mode (d : Disk) (path : String) : Except IoError UInt32 := do
  match ← d.find path with
  | (_, .file number) => return (d.body number).mode
  | (_, .directory mode) => return mode
  | (_, .link _) => return 0o777

/-- The special bit that a new directory takes over from the one it is in. -/
def inheritedBits (d : Disk) (place : Place) : UInt32 :=
  match d.node? place with
  | some (.directory mode) => mode &&& 0o2000
  | _ => 0

def createDirectory (path : String) (d : Disk) : Except IoError Disk := do
  match ← d.parent path with
  | (directory, .name name _) =>
    let found ← d.entry directory name
    if found.node?.isSome then throw taken
    let mode := 0o755 ||| d.inheritedBits directory
    return { d with nodes := Table.set found.place (.directory mode) d.nodes }
  | _ => throw taken

def isIn (directory place : Place) : Bool :=
  !place.isEmpty && place.dropLast == directory

def readDirectory (d : Disk) (path : String) : Except IoError (List String) := do
  match ← d.find path with
  | (place, .directory _) =>
    let names := d.nodes.filterMap fun (p, _) => if isIn place p then p.getLast? else none
    return Text.sortedNames names
  | _ => throw notDirectory

def removeFile (path : String) (d : Disk) : Except IoError Disk := do
  match ← d.parent path with
  | (directory, .name name bare) =>
    let found ← d.entry directory name
    match found.node? with
    | none => throw noEntry
    | some (.directory _) => throw isDirectory
    | some _ =>
      if !bare then throw notDirectory
      return { d with nodes := Table.erase found.place d.nodes }
  | _ => throw isDirectory

/-- Removes an empty directory, which has to be named: the last part is none of the dots. -/
def removeDirectory (path : String) (d : Disk) : Except IoError Disk := do
  match ← d.parent path with
  | (_, .root) => throw busy
  | (_, .dot) => throw invalid
  | (_, .dotDot) => throw notEmpty
  | (directory, .name name _) =>
    let found ← d.entry directory name
    match found.node? with
    | none => throw noEntry
    | some (.directory _) =>
      if d.nodes.any fun (p, _) => isIn found.place p then throw notEmpty
      return { d with nodes := Table.erase found.place d.nodes }
    | some _ => throw notDirectory

/-- The place of what was at or below `source` once that has become `target`. -/
def movedPlace (source target place : Place) : Place :=
  if source.isPrefixOf place then target ++ place.drop source.length else place

/-- Refuses to put one node in the place of another of a different sort, or of a directory that is
not empty. -/
def checkReplaced (d : Disk) (source : Node) (target : Place) : Option Node → Except IoError Unit
  | none => .ok ()
  | some (.directory _) =>
    match source with
    | .directory _ => if d.nodes.any fun (p, _) => isIn target p then .error notEmpty else .ok ()
    | _ => .error isDirectory
  | some _ =>
    match source with
    | .directory _ => .error notDirectory
    | _ => .ok ()

/-- Moves a node with all that lies below it; a file or an empty directory in its way is replaced.
Both have to be named, and only a directory with slashes after its name. -/
def rename (source target : String) (d : Disk) : Except IoError Disk := do
  match ← d.parent source, ← d.parent target with
  | (sourceIn, .name sourceName sourceBare), (targetIn, .name targetName targetBare) =>
    let source ← d.entry sourceIn sourceName
    match source.node? with
    | none => throw noEntry
    | some node =>
      let target ← d.entry targetIn targetName
      if !node.isDirectory && !(sourceBare && targetBare) then throw notDirectory
      if source.place = target.place then return d
      if source.place.isPrefixOf target.place then throw invalid
      if target.place.isPrefixOf source.place then throw notEmpty
      d.checkReplaced node target.place target.node?
      let nodes := Table.erase target.place d.nodes
      let moved := movedPlace source.place target.place
      return { d with nodes := nodes.map fun (p, n) => (moved p, n) }
  | _, _ => throw busy

def setMode (path : String) (mode : UInt32) (d : Disk) : Except IoError Disk := do
  match ← d.find path with
  | (_, .file number) =>
    return { d with bodies := d.bodies.modify number fun b => { b with mode := permissionBits mode } }
  | (place, .directory _) =>
    return { d with nodes := Table.set place (.directory (permissionBits mode)) d.nodes }
  | _ => throw noEntry

/-- An open file, or an open directory that has no number. -/
structure Handle where
  number? : Option Nat
  position : UInt64
  deriving DecidableEq, Repr, Inhabited

def openReader (d : Disk) (path : String) : Except IoError Handle := do
  match ← d.find path with
  | (_, .file number) => return ⟨some number, 0⟩
  | _ => return ⟨none, 0⟩

/-- Where a file to be written lies. Only a name without slashes after it can lead to one. -/
def resolveFile (d : Disk) (path : String) : Except IoError Found := do
  match ← d.parent path with
  | (directory, .name name true) => d.walk linkLimit directory [name]
  | _ => throw isDirectory

/-- Opens a file for writing, emptied if it is there and made if it is not. -/
def openWriter (path : String) (d : Disk) : Except IoError (Handle × Disk) := do
  let found ← d.resolveFile path
  match found.node? with
  | some (.file number) =>
    let bodies := d.bodies.modify number fun b => { b with data := [] }
    return (⟨some number, 0⟩, { d with bodies })
  | some _ => throw isDirectory
  | none =>
    let number := d.bodies.length
    return (⟨some number, 0⟩, { d with
      nodes := Table.set found.place (.file number) d.nodes
      bodies := d.bodies ++ [⟨[], 0o644⟩] })

/-- The bytes after some were written over them at an offset; a gap is filled with zeros. -/
def overwrite (data : List Byte) (offset : Nat) (bytes : List Byte) : List Byte :=
  (data ++ List.replicate (offset - data.length) 0).take offset ++ bytes ++
    data.drop (offset + bytes.length)

def used (d : Disk) : Nat :=
  d.nodes.foldl (fun sum entry =>
    match entry.2 with
    | .file number => sum + (d.body number).data.length
    | _ => sum) 0

def space (d : Disk) (path : String) : Except IoError Space := do
  if path.toList.any (·.toNat = 0) then throw invalid
  let _ ← d.find path
  return ⟨d.capacity, UInt64.ofNat d.used, UInt64.ofNat (d.capacity.toNat - d.used)⟩

/-- What lies below a place, by the names from there, in the order of these. -/
def below (d : Disk) (place : Place) : List (Place × Node) :=
  let nodes := d.nodes.filterMap fun (p, node) =>
    if place.isPrefixOf p && p.length != place.length then some (p.drop place.length, node)
    else none
  nodes.mergeSort fun a b => !decide (b.1 < a.1)

def writeFile (path : String) (data : List Byte) (d : Disk) : Except IoError Disk := do
  let (handle, d) ← openWriter path d
  return { d with bodies := match handle.number? with
    | some number => d.bodies.modify number fun b => { b with data }
    | none => d.bodies }

def makeDirectories (place : Place) (d : Disk) : Disk :=
  (List.range (place.length + 1)).foldl
    (fun d n =>
      if (d.node? (place.take n)).isSome then d
      else { d with nodes := Table.set (place.take n) (.directory 0o755) d.nodes }) d

def makeLink (place : Place) (target : String) (d : Disk) : Disk :=
  { d with nodes := Table.set place (.link target) d.nodes }

def removeAll (path : String) (d : Disk) : Except IoError Disk := do
  match ← d.parent path with
  | (directory, .name name _) =>
    let found ← d.entry directory name
    if found.node?.isNone then throw noEntry
    return { d with nodes := d.nodes.filter fun (p, _) => !found.place.isPrefixOf p }
  | _ => throw invalid

end Disk

end VolumeFS
