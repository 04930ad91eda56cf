import VolumeFS.Text.Split

/-!
# Places on a volume

A key is the list of names that lead from the root of a volume to an entry.
Reading a path drops empty names and `.`, and `..` removes the name before it,
if there is one; a path need not start with a slash.
-/

set_option autoImplicit false

namespace VolumeFS.Volume

structure Key where
  names : List String
  deriving DecidableEq, Repr, Inhabited

namespace Key

def root : Key := ⟨[]⟩

def pushPart (names : List String) (part : String) : List String :=
  if part = "" ∨ part = "." then names
  else if part = ".." then names.dropLast
  else names ++ [part]

def ofText (text : String) : Key :=
  ⟨((Text.fields '/' text.toList).map String.ofList).foldl pushPart []⟩

def text (k : Key) : String :=
  "/" ++ "/".intercalate k.names

def isRoot (k : Key) : Bool :=
  k.names.isEmpty

def parent? (k : Key) : Option Key :=
  if k.names.isEmpty then none else some ⟨k.names.dropLast⟩

/-- Whether `k` is `top` or lies below it. -/
def isWithin (top k : Key) : Bool :=
  top.names.isPrefixOf k.names

def isBelow (top k : Key) : Bool :=
  top.isWithin k && k != top

def moved (source target k : Key) : Key :=
  if source.isWithin k then ⟨target.names ++ k.names.drop source.names.length⟩ else k

def nameIn? (top k : Key) : Option String :=
  if k.parent? = some top then k.names.getLast? else none

end Key

end VolumeFS.Volume
