/-!
# Dynamic records

A record as it comes out of a data format, before anyone has asked what its
fields mean. Floats and dates keep their text, for nothing here computes with
them.
-/

set_option autoImplicit false

namespace VolumeFS.Record

inductive Value where
  | null
  | bool (b : Bool)
  | int (n : Int)
  | float (text : String)
  | text (s : String)
  | date (text : String)
  | list (items : List Value)
  | table (entries : List (String × Value))
  deriving Repr, Inhabited

/-- What differs between data formats where a record is read from them. -/
structure Format where
  /-- Whether a value says nothing but that it is there. -/
  isUnit : Value → Bool

/-- A whole number from 0 up to but not including `limit`. -/
def Value.natBelow? (limit : Nat) : Value → Option Nat
  | .int (.ofNat n) => if n < limit then some n else none
  | _ => none

def Value.text? : Value → Option String
  | .text s => some s
  | _ => none

def Value.list? : Value → Option (List Value)
  | .list items => some items
  | _ => none

def Value.int? : Value → Option Int
  | .int n => some n
  | _ => none

/-- A field of a table that is there and not null. -/
def Value.field? (name : String) : Value → Option Value
  | .table entries =>
    match entries.lookup name with
    | some .null => none
    | found => found
  | _ => none

def Value.extend (more : List (String × Value)) : Value → Value
  | .table entries => .table (entries ++ more)
  | v => v

theorem Value.sizeOf_lt_of_field? {name : String} {v w : Value} (h : v.field? name = some w) :
    sizeOf w < sizeOf v := by
  cases v with
  | table entries =>
    have found : entries.lookup name = some w := by
      simp only [Value.field?] at h
      split at h
      · simp at h
      · exact h
    have member : (name, w) ∈ entries := by
      obtain ⟨before, after, rfl, _⟩ := List.lookup_eq_some_iff.1 found
      simp
    have smaller := List.sizeOf_lt_of_mem member
    simp only [Prod.mk.sizeOf_spec, Value.table.sizeOf_spec] at smaller ⊢
    omega
  | _ => simp [Value.field?] at h

def optional? {α : Type} (read : Value → Option α) : Option Value → Option (Option α)
  | none => some none
  | some .null => some none
  | some v => (read v).map some

/-- The fields of a record by their names, or by their order where it is written as a list. -/
def fields? (names : List String) : Value → Option (List (Option Value))
  | .table entries => some (names.map fun name => entries.lookup name)
  | .list items =>
    if items.length ≤ names.length then
      some ((List.range names.length).map fun i => items[i]?)
    else none
  | _ => none

end VolumeFS.Record
