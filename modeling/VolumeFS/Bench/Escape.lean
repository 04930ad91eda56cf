import VolumeFS.Text.Utf8

/-!
# Backslash codes

What stands for one byte behind a backslash: letters, octal numbers and, for
some readers, hexadecimal numbers and the quote. A backslash in front of
anything else stands for itself.
-/

set_option autoImplicit false

namespace VolumeFS.Bench

structure Escapes where
  /-- The three digits of an octal number may have a zero in front. -/
  leadingZero : Bool
  hexadecimal : Bool
  quote : Bool
  /-- The letter `c` ends all output. -/
  stop : Bool
  deriving DecidableEq, Repr, Inhabited

namespace Escapes

def ofEcho : Escapes := ⟨true, true, false, true⟩

def ofShellEcho : Escapes := ⟨true, false, false, true⟩

def ofFormat : Escapes := ⟨false, true, true, true⟩

def ofShellFormat : Escapes := ⟨false, false, false, false⟩

end Escapes

def letterCode? : Char → Option UInt8
  | 'a' => some 7
  | 'b' => some 8
  | 'e' => some 27
  | 'f' => some 12
  | 'n' => some 10
  | 'r' => some 13
  | 't' => some 9
  | 'v' => some 11
  | '\\' => some 92
  | _ => none

def isOctal (c : Char) : Bool := '0' ≤ c && c ≤ '7'

def hexDigit? (c : Char) : Option Nat :=
  if '0' ≤ c && c ≤ '9' then some (c.toNat - 48)
  else if 'a' ≤ c && c ≤ 'f' then some (c.toNat - 87)
  else if 'A' ≤ c && c ≤ 'F' then some (c.toNat - 55)
  else none

/-- The value of digits, most significant first, those that are none counting as zeros. -/
def valueIn (base : Nat) (digits : List Char) : Nat :=
  digits.foldl (fun n c => base * n + (hexDigit? c).getD 0) 0

def utf8 (cs : List Char) : List UInt8 := Text.bytes (String.ofList cs)

inductive Escaped where
  /-- Some bytes, for so many characters after the backslash. -/
  | bytes (bytes : List UInt8) (taken : Nat)
  | stop
  deriving DecidableEq, Repr, Inhabited

namespace Escapes

def read (e : Escapes) : List Char → Escaped
  | [] => .bytes [92] 0
  | c :: cs =>
    if isOctal c then
      let zeros := if e.leadingZero && c = '0' then 1 else 0
      let digits := (((c :: cs).drop zeros).take 3).takeWhile isOctal
      .bytes [UInt8.ofNat (valueIn 8 digits)] (zeros + digits.length)
    else if e.stop && c = 'c' then .stop
    else if e.quote && c = '"' then .bytes [34] 1
    else match letterCode? c with
      | some code => .bytes [code] 1
      | none =>
        let digits := (cs.take 2).takeWhile fun c => (hexDigit? c).isSome
        if e.hexadecimal && c = 'x' && !digits.isEmpty then
          .bytes [UInt8.ofNat (valueIn 16 digits)] (1 + digits.length)
        else .bytes (92 :: utf8 [c]) 1

/-- The bytes of a text, and whether a code in it ends all output. -/
def decode (e : Escapes) : List Char → List UInt8 × Bool
  | [] => ([], false)
  | c :: cs =>
    if c = '\\' then
      match e.read cs with
      | .stop => ([], true)
      | .bytes bytes taken =>
        let (rest, stopped) := e.decode (cs.drop taken)
        (bytes ++ rest, stopped)
    else
      let (rest, stopped) := e.decode cs
      (utf8 [c] ++ rest, stopped)
termination_by cs => cs.length
decreasing_by
  · simp only [List.length_drop, List.length_cons]
    omega
  · simp

end Escapes

end VolumeFS.Bench
