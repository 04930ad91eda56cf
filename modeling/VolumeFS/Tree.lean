import VolumeFS.Path

/-!
# Trees built from single-entry steps

A `Tree` offers four steps, each on one entry: what a path is, making one
directory, the names in a directory, and removing one entry. From these come
the operations on more than one entry: making a directory with all its parents,
deleting a directory with all it holds, and finding the place of a rename.
-/

set_option autoImplicit false

namespace VolumeFS

inductive EntryKind where
  | file
  | directory
  deriving DecidableEq, Repr, Inhabited

def EntryKind.word : EntryKind → String
  | .file => "file"
  | .directory => "dir"

structure Tree (m : Type → Type) where
  /-- What is at the path, if anything is. -/
  kind : Path → ExceptT Fault m (Option EntryKind)
  /-- Makes one directory in a directory that is there. -/
  makeDirectory : Path → ExceptT Fault m Unit
  /-- The names of what is directly in a directory. -/
  childNames : Path → ExceptT Fault m (List String)
  /-- Removes a file or an empty directory. -/
  removeEntry : Path → EntryKind → ExceptT Fault m Unit
  /-- Waits for so many milliseconds. -/
  pause : Nat → m Unit
  /-- No walk down the tree meets more directories than this. -/
  reach : m Nat

namespace Tree

variable {m : Type → Type} [Monad m]

/-- How long to wait after the attempt of this number, the first being 0. -/
def delay (attempt : Nat) : Nat := 10 * Nat.pow 2 (min attempt 4)

/-- How often a directory is tried again after the first attempt. -/
def retries : Nat := 4

/-- Tries to make one directory and gives the fault if it is not there afterwards. It also counts as
made when somebody else made it. -/
def makeOnce (t : Tree m) (directory : Path) : ExceptT Fault m (Option Fault) := do
  match ← attempt (t.makeDirectory directory) with
  | .ok () => return none
  | .error fault => return if (← t.kind directory) = some .directory then none else some fault

/-- Makes one directory, trying up to `left` more times after a first failure; so many attempts were
made before. -/
def makeTrying (t : Tree m) (directory : Path) (attempts : Nat) : Nat → ExceptT Fault m Unit
  | 0 => do
    match ← t.makeOnce directory with
    | none => return
    | some fault => throw fault
  | left + 1 => do
    match ← t.makeOnce directory with
    | none => return
    | some _ =>
      t.pause (delay attempts)
      makeTrying t directory (attempts + 1) left

/-- Makes those of the directories that are missing, the outermost first. -/
def makeAll (t : Tree m) : List Path → ExceptT Fault m Unit
  | [] => return
  | directory :: rest => do
    match ← t.kind directory with
    | some .directory => makeAll t rest
    | some .file =>
      throw (.alreadyExists s!"{directory.text} exists and is not a directory")
    | none => do
      t.makeTrying directory 0 retries
      makeAll t rest

def mkdirs (t : Tree m) (p : Path) : ExceptT Fault m Unit :=
  t.makeAll p.lineage

def ensureParent (t : Tree m) (p : Path) : ExceptT Fault m Unit :=
  match p.parent? with
  | some parent => if parent.isRoot then return else t.mkdirs parent
  | none => return

/-- Entries met on a walk, the latest first, and directories whose names are still to be looked at. -/
structure Walk where
  found : List (Path × EntryKind)
  pending : List (Path × List String)

def visit (t : Tree m) (directory : Path) : List String → Walk → ExceptT Fault m Walk
  | [], w => return w
  | name :: names, w => do
    let child := directory.child name
    match ← t.kind child with
    | some .directory =>
      let below ← t.childNames child
      visit t directory names
        ⟨(child, .directory) :: w.found, (child, below) :: w.pending⟩
    | some .file => visit t directory names { w with found := (child, .file) :: w.found }
    | none => visit t directory names w

/-- The fault of a walk that would go on for ever. -/
def endless : Fault := .other "the tree has no end"

/-- Looks at all pending directories and at those met on the way, the latest first. -/
def walk (t : Tree m) : Nat → Walk → ExceptT Fault m (List (Path × EntryKind))
  | 0, _ => throw endless
  | fuel + 1, w =>
    match w.pending with
    | [] => return w.found
    | (directory, names) :: pending => do
      walk t fuel (← t.visit directory names { w with pending })

/-- Removes the entries one by one and stops at the first that cannot be removed. -/
def removeEach (t : Tree m) (p : Path) : List (Path × EntryKind) → ExceptT Fault m Unit
  | [] => return
  | (entry, kind) :: rest => do
    match ← attempt (t.removeEntry entry kind) with
    | .ok () => removeEach t p rest
    | .error cause =>
      throw (.partialDelete p.text entry.text (entry.text :: rest.map (·.1.text)) cause)

/-- Deletes a path. A directory that is not empty has to be deleted recursively; all it holds is
found first, and then removed in the opposite order. -/
def remove (t : Tree m) (p : Path) (recursive : Bool) : ExceptT Fault m Unit := do
  match ← t.kind p with
  | none => throw (.notFound p.text)
  | some .file => t.removeEntry p .file
  | some .directory =>
    let names ← t.childNames p
    if !names.isEmpty && !recursive then throw (.directoryNotEmpty p.text)
    let fuel := (← t.reach) + 2
    let found ← t.walk fuel ⟨[(p, .directory)], [(p, names)]⟩
    t.removeEach p found

/-- Where a path goes when it is moved: into the destination if that is a directory. -/
def placeIn (t : Tree m) (source destination : Path) : ExceptT Fault m Path := do
  match ← t.kind destination with
  | some .directory =>
    match source.name? with
    | some name => return destination.child name
    | none => throw (.invalidArgument "cannot move the root directory")
  | _ => return destination

/-- Where a rename leads. Nothing is ever replaced, but a path may stay where it is. -/
def renameTarget (t : Tree m) (source destination : Path) : ExceptT Fault m Path := do
  let target ← t.placeIn source destination
  if target = source then return target
  match ← t.kind target with
  | some _ => throw (.alreadyExists target.text)
  | none => return target

end Tree

end VolumeFS
