/-!
# Byte offsets

Offsets and lengths are words of 64 bits. Sums that would not fit stay at the
largest word.
-/

set_option autoImplicit false

namespace VolumeFS

abbrev Byte := UInt8

namespace Offset

def largest : Nat := 0xffffffffffffffff

/-- The word of a number, or the largest word. -/
def ofNatSat (n : Nat) : UInt64 :=
  UInt64.ofNat (min n largest)

def addSat (a b : UInt64) : UInt64 :=
  ofNatSat (a.toNat + b.toNat)

def mulSat (a b : UInt64) : UInt64 :=
  ofNatSat (a.toNat * b.toNat)

def subSat (a b : UInt64) : UInt64 :=
  UInt64.ofNat (a.toNat - b.toNat)

/-- The part of `[start, start + length)` inside a file, as its start and its length. -/
def clampRange (fileLength start length : UInt64) : Option (UInt64 × UInt64) :=
  let stop := min (addSat start length) fileLength
  if start < stop then some (start, stop - start) else none

theorem toNat_ofNatSat (n : Nat) : (ofNatSat n).toNat = min n largest := by
  simp only [ofNatSat, largest, UInt64.toNat_ofNat']
  omega

theorem toNat_addSat (a b : UInt64) :
    (addSat a b).toNat = min (a.toNat + b.toNat) largest :=
  toNat_ofNatSat _

theorem toNat_mulSat (a b : UInt64) :
    (mulSat a b).toNat = min (a.toNat * b.toNat) largest :=
  toNat_ofNatSat _

theorem toNat_subSat (a b : UInt64) : (subSat a b).toNat = a.toNat - b.toNat := by
  have := a.toNat_lt
  simp only [subSat, UInt64.toNat_ofNat']
  omega

theorem toNat_le_largest (a : UInt64) : a.toNat ≤ largest := by
  have := a.toNat_lt
  simp only [largest]
  omega

theorem toNat_pos {a : UInt64} (h : a ≠ 0) : 0 < a.toNat :=
  Nat.pos_of_ne_zero fun h0 => h (UInt64.toNat_inj.1 h0)

theorem toNat_min (a b : UInt64) : (min a b).toNat = min a.toNat b.toNat := by
  change (if a ≤ b then a else b).toNat = _
  split
  · exact (Nat.min_eq_left (UInt64.le_iff_toNat_le.1 ‹_›)).symm
  · exact (Nat.min_eq_right (Nat.le_of_lt (UInt64.not_le.1 ‹_›))).symm

theorem toNat_max (a b : UInt64) : (max a b).toNat = max a.toNat b.toNat := by
  change (if a ≤ b then b else a).toNat = _
  split
  · exact (Nat.max_eq_right (UInt64.le_iff_toNat_le.1 ‹_›)).symm
  · exact (Nat.max_eq_left (Nat.le_of_lt (UInt64.not_le.1 ‹_›))).symm

theorem clampRange_found {fileLength start length : UInt64}
    (h : start.toNat < min (start.toNat + length.toNat) fileLength.toNat) :
    ∃ n, clampRange fileLength start length = some (start, n) ∧
      start.toNat + n.toNat = min (start.toNat + length.toNat) fileLength.toNat := by
  have hfile := toNat_le_largest fileLength
  have hstop : (min (addSat start length) fileLength).toNat =
      min (start.toNat + length.toNat) fileLength.toNat := by
    rw [toNat_min, toNat_addSat]
    omega
  have hlt : start < min (addSat start length) fileLength := by
    rwa [UInt64.lt_iff_toNat_lt, hstop]
  refine ⟨_, if_pos hlt, ?_⟩
  rw [UInt64.toNat_sub_of_le _ _ (UInt64.le_of_lt hlt), hstop]
  omega

theorem clampRange_outside {fileLength start length : UInt64}
    (h : ¬ start.toNat < min (start.toNat + length.toNat) fileLength.toNat) :
    clampRange fileLength start length = none := by
  refine if_neg fun hlt => h ?_
  rw [UInt64.lt_iff_toNat_lt, toNat_min, toNat_addSat] at hlt
  omega

end Offset

end VolumeFS
