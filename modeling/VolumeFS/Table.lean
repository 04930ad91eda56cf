/-!
# Tables

A table is a list of keys with values in which the first entry of a key counts.
`set` changes an entry where it stands or adds it at the end, so a table built
by `set` alone has each key once. The lemmas say what a later look-up finds.
-/

set_option autoImplicit false

namespace VolumeFS

abbrev Table (κ α : Type) := List (κ × α)

namespace Table

variable {κ α : Type} [DecidableEq κ]

def set (key : κ) (a : α) : Table κ α → Table κ α
  | [] => [(key, a)]
  | (k, old) :: rest => if k = key then (k, a) :: rest else (k, old) :: set key a rest

def erase (key : κ) (t : Table κ α) : Table κ α :=
  t.filter fun entry => entry.1 ≠ key

theorem lookup_cons_eq (key k : κ) (a : α) (t : Table κ α) :
    List.lookup key ((k, a) :: t) = if key = k then some a else t.lookup key := by
  by_cases h : key = k
  · simp [h]
  · have hb : (key == k) = false := by simpa using h
    simp [List.lookup_cons, hb, h]

@[simp] theorem lookup_set_self (key : κ) (a : α) (t : Table κ α) :
    (set key a t).lookup key = some a := by
  induction t with
  | nil => simp [set]
  | cons entry rest ih =>
    obtain ⟨k, old⟩ := entry
    by_cases h : k = key
    · simp [set, h]
    · simp [set, h, lookup_cons_eq, Ne.symm h, ih]

theorem lookup_set_of_ne {key other : κ} (h : other ≠ key) (a : α) (t : Table κ α) :
    (set key a t).lookup other = t.lookup other := by
  induction t with
  | nil => simp [set, lookup_cons_eq, h]
  | cons entry rest ih =>
    obtain ⟨k, old⟩ := entry
    by_cases hk : k = key
    · simp [set, hk, lookup_cons_eq, h]
    · simp [set, hk, lookup_cons_eq, ih]

@[simp] theorem lookup_erase_self (key : κ) (t : Table κ α) : (erase key t).lookup key = none := by
  induction t with
  | nil => rfl
  | cons entry rest ih =>
    obtain ⟨k, old⟩ := entry
    unfold erase at ih ⊢
    by_cases h : k = key
    · rw [List.filter_cons_of_neg (by simp [h]), ih]
    · rw [List.filter_cons_of_pos (by simp [h]), lookup_cons_eq, if_neg (Ne.symm h), ih]

theorem lookup_erase_of_ne {key other : κ} (h : other ≠ key) (t : Table κ α) :
    (erase key t).lookup other = t.lookup other := by
  induction t with
  | nil => rfl
  | cons entry rest ih =>
    obtain ⟨k, old⟩ := entry
    unfold erase at ih ⊢
    by_cases hk : k = key
    · rw [List.filter_cons_of_neg (by simp [hk]), ih, lookup_cons_eq, if_neg (hk ▸ h)]
    · rw [List.filter_cons_of_pos (by simp [hk]), lookup_cons_eq, lookup_cons_eq, ih]

end Table

end VolumeFS
