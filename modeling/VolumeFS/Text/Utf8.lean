/-!
# Bytes read as text

Bytes that are no UTF-8 are replaced: each longest piece that starts like a
character but is none becomes U+FFFD.
-/

set_option autoImplicit false

namespace VolumeFS.Text

/-- The bits a first byte contributes, how many bytes follow it, and the range of the next one. -/
def leadingByte? (b : UInt8) : Option (Nat × Nat × Nat × Nat) :=
  let n := b.toNat
  if n < 0x80 then some (n, 0, 0, 0)
  else if 0xC2 ≤ n ∧ n ≤ 0xDF then some (n - 0xC0, 1, 0x80, 0xBF)
  else if n = 0xE0 then some (0, 2, 0xA0, 0xBF)
  else if n = 0xED then some (0xD, 2, 0x80, 0x9F)
  else if 0xE1 ≤ n ∧ n ≤ 0xEF then some (n - 0xE0, 2, 0x80, 0xBF)
  else if n = 0xF0 then some (0, 3, 0x90, 0xBF)
  else if 0xF1 ≤ n ∧ n ≤ 0xF3 then some (n - 0xF0, 3, 0x80, 0xBF)
  else if n = 0xF4 then some (4, 3, 0x80, 0x8F)
  else none

/-- The bytes that go on with a character, up to the first one that does not. -/
def following : Nat → Nat → Nat → List UInt8 → List UInt8
  | 0, _, _, _ => []
  | _ + 1, _, _, [] => []
  | count + 1, low, high, b :: bs =>
    if low ≤ b.toNat ∧ b.toNat ≤ high then b :: following count 0x80 0xBF bs else []

def headChar (b : UInt8) (bs : List UInt8) : Char × Nat :=
  match leadingByte? b with
  | none => ('\ufffd', 0)
  | some (bits, count, low, high) =>
    let tail := following count low high bs
    if tail.length = count then
      (Char.ofNat (tail.foldl (fun n b => 64 * n + (b.toNat - 0x80)) bits), count)
    else ('\ufffd', tail.length)

def lossyChars : List UInt8 → List Char
  | [] => []
  | b :: bs =>
    let (c, used) := headChar b bs
    c :: lossyChars (bs.drop used)
termination_by bs => bs.length
decreasing_by
  simp only [List.length_drop, List.length_cons]
  omega

def ofBytesLossy (bytes : List UInt8) : String :=
  String.ofList (lossyChars bytes)

def bytes (s : String) : List UInt8 :=
  s.toUTF8.toList

end VolumeFS.Text
