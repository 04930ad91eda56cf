import VolumeFS.Fault
import VolumeFS.Text.Case
import VolumeFS.Text.Split

/-!
# Hierarchical paths

A path is a list of segments, absolute or relative, that may carry the scheme
and the authority of the file system it belongs to. Parsing drops empty
segments and `.`, and lets `..` remove the segment before it; above the root
`..` is nothing, and a relative path keeps those that lead out of it. Two
spellings of one path are therefore equal as values.
-/

set_option autoImplicit false

namespace VolumeFS

structure Path where
  scheme : Option String
  authority : Option String
  absolute : Bool
  /-- The names on the way, the outermost first. -/
  segments : List String
  deriving DecidableEq, Repr, Inhabited

namespace Path

def volumeScheme : String := "glusterfs"

def root : Path := ⟨none, none, true, []⟩

def pushPart (absolute : Bool) (segments : List String) (part : String) : List String :=
  if part = "" ∨ part = "." then segments
  else if part = ".." then
    if segments.getLast?.any (· ≠ "..") then segments.dropLast
    else if absolute then segments
    else segments ++ [".."]
  else segments ++ [part]

def pushParts (absolute : Bool) (segments parts : List String) : List String :=
  parts.foldl (pushPart absolute) segments

def parts (text : List Char) : List String :=
  (Text.fields '/' text).map String.ofList

/-- A letter followed by letters, digits and the characters `+`, `-` and `.`. -/
def isScheme : List Char → Bool
  | [] => false
  | c :: cs => c.isAlpha && cs.all fun d => d.isAlphanum || d == '+' || d == '-' || d == '.'

def qualifier? (text : List Char) : Option (String × Option String × List Char) :=
  match Text.cutAt? [':', '/', '/'] text with
  | some (scheme, rest) =>
    if isScheme scheme then
      let (authority, path) := rest.span (· ≠ '/')
      some (Text.lower (String.ofList scheme),
        if authority.isEmpty then none else some (String.ofList authority), path)
    else none
  | none => none

/-- Reads `scheme://authority/a/b`, `/a/b` and `a/b`; only the empty text is refused. -/
def parse (text : String) : Except Fault Path :=
  if text = "" then .error (.invalidPath "empty path")
  else match qualifier? text.toList with
    | some (scheme, authority, rest) =>
      .ok ⟨some scheme, authority, true, pushParts true [] (parts rest)⟩
    | none =>
      let absolute := text.toList.head? = some '/'
      .ok ⟨none, none, absolute, pushParts absolute [] (parts text.toList)⟩

def isRoot (p : Path) : Bool :=
  p.absolute && p.segments.isEmpty

def name? (p : Path) : Option String :=
  p.segments.getLast?

/-- The path above; the root and a single relative segment have none. -/
def parent? (p : Path) : Option Path :=
  if p.segments.isEmpty || (!p.absolute && p.segments.length == 1) then none
  else some { p with segments := p.segments.dropLast }

def child (p : Path) (name : String) : Path :=
  { p with segments := pushParts p.absolute p.segments (parts name.toList) }

/-- The place `q` names seen from `p`: `q` itself if it is absolute. -/
def join (p q : Path) : Path :=
  if q.absolute then q
  else { p with segments := pushParts p.absolute p.segments q.segments }

def unqualified (p : Path) : Path :=
  { p with scheme := none, authority := none }

/-- The absolute path with these segments and this scheme and authority; an empty authority is none. -/
def qualified (p : Path) (scheme : String) (authority : Option String) : Path :=
  ⟨some scheme, authority.filter (· ≠ ""), true, p.segments⟩

/-- Whether the segments of `q` lead those of `p`, both being absolute or both relative. -/
def startsWith (p q : Path) : Bool :=
  p.absolute == q.absolute && q.segments.isPrefixOf p.segments

/-- The absolute path that is left of `p` below `q`. -/
def below? (p q : Path) : Option Path :=
  if p.startsWith q then some ⟨none, none, true, p.segments.drop q.segments.length⟩ else none

/-- The text without scheme and authority: one leading slash if absolute, none at the end. -/
def text (p : Path) : String :=
  let joined := "/".intercalate p.segments
  if p.absolute then "/" ++ joined else joined

def display (p : Path) : String :=
  match p.scheme with
  | some scheme => scheme ++ "://" ++ p.authority.getD "" ++ p.text
  | none => p.text

/-- The paths on the way down, from the first segment to `p` itself. -/
def lineage (p : Path) : List Path :=
  (List.range p.segments.length).map fun n => { p with segments := p.segments.take (n + 1) }

/-- Lists compared element by element; a list comes before its continuations. -/
def compareSegments : List String → List String → Ordering
  | [], [] => .eq
  | [], _ :: _ => .lt
  | _ :: _, [] => .gt
  | a :: as, b :: bs => (compare a b).then (compareSegments as bs)

def compareOptional : Option String → Option String → Ordering
  | none, none => .eq
  | none, some _ => .lt
  | some _, none => .gt
  | some a, some b => compare a b

/-- By scheme, then authority, relative before absolute, then by segments. -/
protected def compare (p q : Path) : Ordering :=
  ((compareOptional p.scheme q.scheme).then (compareOptional p.authority q.authority)).then
    ((compare p.absolute q.absolute).then (compareSegments p.segments q.segments))

instance : Ord Path := ⟨Path.compare⟩

def le (p q : Path) : Bool :=
  p.compare q != .gt

end Path

end VolumeFS
