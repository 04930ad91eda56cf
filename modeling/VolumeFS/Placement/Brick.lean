import VolumeFS.Text.Case
import VolumeFS.Text.Split

/-!
# Bricks and hosts

A brick holds one copy of a file, or of a part of one, on a host. Host names
are compared without regard to case, and a name without its domain stands for
the whole name.
-/

set_option autoImplicit false

namespace VolumeFS

structure Brick where
  host : String
  /-- The directory the host contributes to the volume. -/
  exportDir : String
  /-- Where the copy lies on the host's own file system. -/
  path : String
  deriving DecidableEq, Repr, Inhabited

namespace Host

/-- A host name up to its first dot, in small letters. -/
def short (host : String) : String :=
  Text.lower (String.ofList (host.toList.takeWhile (· ≠ '.')))

/-- Whether two names can mean one host. -/
def isSame (a b : String) : Bool :=
  Text.sameLetters a b || short a == short b

/-- Every host once, regardless of case, where it is named first. -/
def distinct (hosts : List String) : List String :=
  hosts.foldl (fun seen host => if seen.any (Text.sameLetters · host) then seen else seen ++ [host])
    []

/-- The hosts with the first one that can be `here` moved to the front. -/
def localFirst (here : String) (hosts : List String) : List String :=
  match hosts.findIdx? (isSame · here) with
  | some i => hosts[i]?.toList ++ hosts.eraseIdx i
  | none => hosts

end Host

end VolumeFS
