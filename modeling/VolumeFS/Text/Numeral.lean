/-!
# Decimal numerals

Readers for whole numbers of a bounded range. A sign may stand in front, a
minus only where negative numbers are in the range; after it come one or more
of the digits `0` to `9` and nothing else.
-/

set_option autoImplicit false

namespace VolumeFS.Text

def digitValue (c : Char) : Nat :=
  c.toNat - '0'.toNat

/-- The number written by the digits, most significant first, after those that make up `acc`. -/
def decimalValue (acc : Nat) : List Char → Nat
  | [] => acc
  | c :: cs => decimalValue (10 * acc + digitValue c) cs

/-- A non-empty row of the digits `0` to `9`. -/
def digits? (cs : List Char) : Option Nat :=
  if cs.isEmpty || !cs.all Char.isDigit then none else some (decimalValue 0 cs)

/-- A number from 0 up to but not including `limit`, with an optional plus sign. -/
def natBelow? (limit : Nat) (s : String) : Option Nat :=
  let read := match s.toList with
    | '+' :: cs => digits? cs
    | cs => digits? cs
  read.filter (· < limit)

/-- A number from `-limit` up to but not including `limit`, with an optional sign. -/
def intWithin? (limit : Nat) (s : String) : Option Int :=
  match s.toList with
  | '-' :: cs => ((digits? cs).filter (· ≤ limit)).map fun n => -(n : Int)
  | '+' :: cs => ((digits? cs).filter (· < limit)).map fun n => (n : Int)
  | cs => ((digits? cs).filter (· < limit)).map fun n => (n : Int)

def uint32? (s : String) : Option UInt32 :=
  (natBelow? UInt32.size s).map UInt32.ofNat

def uint64? (s : String) : Option UInt64 :=
  (natBelow? UInt64.size s).map UInt64.ofNat

/-- Signed numbers of 64 bits go from minus this up to but not including it. -/
def int64Limit : Nat := 0x8000000000000000

def isInt64 (n : Int) : Bool :=
  -(int64Limit : Int) ≤ n && n < (int64Limit : Int)

def int64? (s : String) : Option Int :=
  intWithin? int64Limit s

end VolumeFS.Text
