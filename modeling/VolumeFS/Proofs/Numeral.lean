import VolumeFS.Text.Numeral

/-!
# Whole numbers of any size

A numeral stands for a whole number, however large. The reader for signed
numbers of 64 bits reads just those numerals whose number is in its range, and
so all that the reader for unsigned numbers of 32 bits does.
-/

set_option autoImplicit false

namespace VolumeFS.Text

def integer? (s : String) : Option Int :=
  let cs := s.toList
  if cs.head? = some '-' then (digits? cs.tail).map fun n : Nat => -(n : Int)
  else if cs.head? = some '+' then (digits? cs.tail).map fun n : Nat => (n : Int)
  else (digits? cs).map fun n : Nat => (n : Int)

theorem isInt64_natCast (n : Nat) : isInt64 n = decide (n < int64Limit) := by
  have hpos : 0 < int64Limit := by decide
  rw [isInt64, ← Bool.decide_and, decide_eq_decide]
  omega

theorem isInt64_neg (n : Nat) : isInt64 (-n) = decide (n ≤ int64Limit) := by
  have hpos : 0 < int64Limit := by decide
  rw [isInt64, ← Bool.decide_and, decide_eq_decide]
  omega

/-- It is the same to check the digits and to check the number that comes of them. -/
theorem filter_digits {P : Nat → Bool} {f : Int → Int} (h : ∀ n : Nat, isInt64 (f n) = P n)
    (read : Option Nat) :
    (do let n ← read.filter P; pure (n : Int)).map f =
      (read.map fun n : Nat => f n).filter isInt64 := by
  cases read with
  | none => rfl
  | some n =>
    rw [Option.map_some, Option.filter_some, Option.filter_some, h]
    cases P n <;> rfl

theorem int64?_eq_filter (s : String) : int64? s = (integer? s).filter isInt64 := by
  unfold int64? intWithin?
  split
  · rename_i cs hs
    have hinteger : integer? s = (digits? cs).map fun n : Nat => -(n : Int) := by
      rw [integer?, hs]
      rfl
    rw [hinteger]
    exact filter_digits isInt64_neg _
  · rename_i cs hs
    have hinteger : integer? s = (digits? cs).map fun n : Nat => (n : Int) := by
      rw [integer?, hs]
      rfl
    rw [hinteger]
    exact filter_digits (f := fun n => n) isInt64_natCast _
  · rename_i hminus hplus
    have hinteger : integer? s = (digits? s.toList).map fun n : Nat => (n : Int) := by
      unfold integer?
      cases hs : s.toList with
      | nil => rfl
      | cons c cs =>
        rw [hs] at hminus hplus
        have hc : c ≠ '-' := fun h => hminus cs (by rw [h])
        have hc' : c ≠ '+' := fun h => hplus cs (by rw [h])
        simp [hc, hc']
    rw [hinteger]
    exact filter_digits (f := fun n => n) isInt64_natCast _

theorem digits?_sign {c : Char} (hc : c.isDigit = false) (cs : List Char) :
    digits? (c :: cs) = none := by
  simp [digits?, hc]

theorem integer?_of_natBelow? {limit : Nat} {s : String} {n : Nat}
    (h : natBelow? limit s = some n) : integer? s = some (n : Int) ∧ n < limit := by
  unfold natBelow? at h
  obtain ⟨hread, hlt⟩ := Option.filter_eq_some_iff.1 h
  refine ⟨?_, of_decide_eq_true hlt⟩
  unfold integer?
  split at hread
  · rename_i cs hs
    simp [hs, hread]
  · rename_i hplus
    cases hs : s.toList with
    | nil =>
      rw [hs] at hread
      cases hread
    | cons c cs =>
      rw [hs] at hread
      have hc : c ≠ '-' := by
        rintro rfl
        rw [digits?_sign (by decide)] at hread
        cases hread
      have hc' : c ≠ '+' := by
        rintro rfl
        exact hplus cs hs
      simp [hc, hc', hread]

/-- What is no number of 64 bits is no number of 32 bits. -/
theorem uint32?_eq_none {s : String} (h : int64? s = none) : uint32? s = none := by
  unfold uint32?
  cases hread : natBelow? UInt32.size s with
  | none => rfl
  | some n =>
    obtain ⟨hinteger, hlt⟩ := integer?_of_natBelow? hread
    have hlimit : UInt32.size < int64Limit := by decide
    have hrange : n < int64Limit := Nat.lt_trans hlt hlimit
    rw [int64?_eq_filter, hinteger, Option.filter_some, isInt64_natCast, decide_eq_true hrange] at h
    cases h

end VolumeFS.Text
