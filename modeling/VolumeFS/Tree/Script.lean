import VolumeFS.Table
import VolumeFS.Text.Names
import VolumeFS.Tree

/-!
# Scripted trees

A tree that is only a table of paths, with failures laid down in advance. It
keeps a log of what was made and removed, and adds up the time that was waited
instead of waiting.
-/

set_option autoImplicit false

namespace VolumeFS

/-- Attempts to make a directory that fail, and what is there after the last of them. -/
structure MakeFailure where
  times : Nat
  appears : Option EntryKind
  deriving DecidableEq, Repr, Inhabited

structure TreeScript where
  entries : Table String EntryKind
  /-- Paths that are listed but are nothing. -/
  ghosts : List String
  failingMakes : Table String MakeFailure
  failingKinds : List String
  failingLists : List String
  failingRemoves : List String
  /-- What was made and removed, the latest first. -/
  log : List String
  /-- Milliseconds waited. -/
  slept : Nat
  deriving Repr, Inhabited

namespace TreeScript

def nameIn? (directory path : String) : Option String :=
  let lead := if directory = "/" then ['/'] else directory.toList ++ ['/']
  if lead.isPrefixOf path.toList then
    let rest := path.toList.drop lead.length
    if rest.isEmpty ∨ '/' ∈ rest then none else some (String.ofList rest)
  else none

def kind (p : String) (s : TreeScript) : Except Fault (Option EntryKind) :=
  if s.failingKinds.contains p then .error (.backend s!"cannot stat {p}")
  else if p = "/" then .ok (some .directory)
  else .ok (s.entries.lookup p)

def make (p : String) (s : TreeScript) : Except Fault Unit × TreeScript :=
  match s.failingMakes.lookup p with
  | some ⟨times + 1, appears⟩ =>
    let s := { s with
      failingMakes := Table.set p ⟨times, appears⟩ s.failingMakes
      log := s!"mkdir! {p}" :: s.log }
    let s := match times, appears with
      | 0, some kind => { s with entries := Table.set p kind s.entries }
      | _, _ => s
    (.error (.backend s!"cannot mkdir {p}"), s)
  | _ =>
    (.ok (), { s with log := s!"mkdir {p}" :: s.log, entries := Table.set p .directory s.entries })

def children (p : String) (s : TreeScript) : Except Fault (List String) :=
  if s.failingLists.contains p then .error (.backend s!"cannot list {p}")
  else .ok (Text.distinctNames ((s.entries.map (·.1) ++ s.ghosts).filterMap (nameIn? p)))

def remove (p : String) (kind : EntryKind) (s : TreeScript) : Except Fault Unit × TreeScript :=
  if s.failingRemoves.contains p then (.error (.backend s!"cannot remove {p}"), s)
  else
    (.ok (), { s with
      entries := Table.erase p s.entries
      log := s!"remove {kind.word} {p}" :: s.log })

def tree : Tree (StateM TreeScript) where
  kind p := ExceptT.mk (return kind p.text (← get))
  makeDirectory p := ExceptT.mk (modifyGet (make p.text))
  childNames p := ExceptT.mk (return children p.text (← get))
  removeEntry p kind := ExceptT.mk (modifyGet (remove p.text kind))
  pause time := modify fun s => { s with slept := s.slept + time }
  reach := return (← get).entries.length

end TreeScript

end VolumeFS
