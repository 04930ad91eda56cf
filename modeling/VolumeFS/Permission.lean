import VolumeFS.Fault

/-!
# Permission bits

Twelve bits: read, write and execute for the owner, the group and the rest,
and three special bits above them, one for each class. The symbolic form has
three characters a class; the special bit of a class shares the place of its
execute bit.
-/

set_option autoImplicit false

namespace VolumeFS

structure Permission where
  bits : UInt16
  deriving DecidableEq, Repr, Inhabited

namespace Permission

/-- A class of users: how far left its three bits stand, its special bit and that bit's letter. -/
structure Triad where
  shift : UInt16
  special : UInt16
  letter : Char
  upper : Char

def owner : Triad := ⟨6, 0o4000, 's', 'S'⟩
def group : Triad := ⟨3, 0o2000, 's', 'S'⟩
def others : Triad := ⟨0, 0o1000, 't', 'T'⟩

def ofMode (mode : UInt32) : Permission :=
  ⟨(mode &&& 0o7777).toUInt16⟩

def mode (p : Permission) : UInt32 :=
  p.bits.toUInt32

def fileDefault : Permission := ⟨0o644⟩

def directoryDefault : Permission := ⟨0o755⟩

def Triad.show (t : Triad) (bits : UInt16) : List Char :=
  let has (bit : UInt16) := bits &&& (bit <<< t.shift) != 0
  [if has 4 then 'r' else '-',
   if has 2 then 'w' else '-',
   match has 1, bits &&& t.special != 0 with
   | true, true => t.letter
   | false, true => t.upper
   | true, false => 'x'
   | false, false => '-']

/-- The nine characters of the symbolic form, such as `rwxr-x---`. -/
def symbolic (p : Permission) : String :=
  String.ofList (owner.show p.bits ++ group.show p.bits ++ others.show p.bits)

/-- The bits of a class written by three characters; a character out of place stands for no bit. -/
def Triad.read (t : Triad) (r w x : Char) : UInt16 :=
  (if r = 'r' then 4 <<< t.shift else 0) |||
  (if w = 'w' then 2 <<< t.shift else 0) |||
  (if x = 'x' ∨ x = 's' ∨ x = 't' then 1 <<< t.shift else 0) |||
  (if x = 's' ∨ x = 't' ∨ x = 'S' ∨ x = 'T' then t.special else 0)

def ofNine? : List Char → Option Permission
  | [a, b, c, d, e, f, g, h, i] =>
    some ⟨owner.read a b c ||| group.read d e f ||| others.read g h i⟩
  | _ => none

/-- Reads nine characters, or ten of which the first tells the type of the file. -/
def ofSymbolic (text : String) : Except Fault Permission :=
  let chars := text.toList
  match ofNine? (if chars.length = 10 then chars.drop 1 else chars) with
  | some p => .ok p
  | none => .error (.invalidArgument s!"bad permission string: {text}")

end Permission

end VolumeFS
