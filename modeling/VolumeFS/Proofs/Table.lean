import Mathlib.Data.List.Nodup
import VolumeFS.Disk
import VolumeFS.Proofs.Tree.Layout

/-!
# Keys of tables

Which keys a table has, and what a later look-up finds after all that lies below
one place was moved to another.
-/

set_option autoImplicit false

namespace VolumeFS.Table

variable {κ α : Type}

def keys (t : Table κ α) : List κ := t.map Prod.fst

@[simp] theorem keys_nil : keys ([] : Table κ α) = [] := rfl

@[simp] theorem keys_cons (k : κ) (a : α) (t : Table κ α) : keys ((k, a) :: t) = k :: keys t := rfl

section Lookup

variable [DecidableEq κ]

theorem lookup_none {t : Table κ α} {k : κ} : t.lookup k = none ↔ k ∉ keys t := by
  induction t with
  | nil => simp
  | cons entry rest ih =>
    obtain ⟨k', a⟩ := entry
    rw [lookup_cons_eq]
    by_cases h : k = k'
    · simp [h]
    · simpa [h] using ih

theorem mem_keys {t : Table κ α} {k : κ} : k ∈ keys t ↔ ∃ a, t.lookup k = some a := by
  rw [← not_iff_not, ← lookup_none, ← Option.ne_none_iff_exists']
  exact not_not.symm

theorem keys_set (k : κ) (a : α) (t : Table κ α) :
    keys (set k a t) = if k ∈ keys t then keys t else keys t ++ [k] := by
  induction t with
  | nil => simp [set]
  | cons entry rest ih =>
    obtain ⟨k', old⟩ := entry
    by_cases h : k' = k
    · simp [set, h]
    · have hne : ¬ k = k' := fun e => h e.symm
      by_cases hm : k ∈ keys rest
      · simp [set, h, ih, hm]
      · simp [set, h, ih, hm, hne]

theorem keys_set_nodup {t : Table κ α} (h : (keys t).Nodup) (k : κ) (a : α) :
    (keys (set k a t)).Nodup := by
  rw [keys_set]
  split_ifs with hk
  · exact h
  · exact h.append (List.nodup_singleton k) (by simpa using hk)

theorem keys_erase_nodup {t : Table κ α} (h : (keys t).Nodup) (k : κ) :
    (keys (erase k t)).Nodup :=
  h.sublist (List.filter_sublist.map Prod.fst)

theorem erase_absent {t : Table κ α} {k : κ} (h : k ∉ keys t) : erase k t = t := by
  refine List.filter_eq_self.2 fun entry hmem => ?_
  have hkey : entry.1 ≠ k := fun he => h (he ▸ List.mem_map_of_mem hmem)
  simpa using hkey

theorem set_set (k : κ) (a b : α) (t : Table κ α) : set k b (set k a t) = set k b t := by
  induction t with
  | nil => simp [set]
  | cons entry rest ih =>
    obtain ⟨k', old⟩ := entry
    by_cases h : k' = k
    · simp [set, h]
    · simp [set, h, ih]

theorem set_lookup {k : κ} {a : α} {t : Table κ α} (h : t.lookup k = some a) :
    set k a t = t := by
  induction t with
  | nil => cases h
  | cons entry rest ih =>
    obtain ⟨k', old⟩ := entry
    rw [lookup_cons_eq] at h
    by_cases hk : k' = k
    · rw [if_pos hk.symm] at h
      cases h
      simp [set, hk]
    · rw [if_neg (fun e => hk e.symm)] at h
      simp [set, hk, ih h]

/-- Where a map of keys takes no other key to the same place, look-ups follow it. -/
theorem lookup_mapped (f : κ → κ) (k : κ) (t : Table κ α)
    (h : ∀ k' ∈ keys t, f k' = f k → k' = k) :
    (t.map fun entry => (f entry.1, entry.2)).lookup (f k) = t.lookup k := by
  induction t with
  | nil => rfl
  | cons entry rest ih =>
    obtain ⟨k', a⟩ := entry
    have hrest := ih (fun q hq => h q (by simp [hq]))
    rw [List.map_cons, lookup_cons_eq, lookup_cons_eq, hrest]
    by_cases hk : k = k'
    · simp [hk]
    · rw [if_neg hk, if_neg]
      intro e
      exact hk (h k' (by simp) e.symm).symm

theorem lookup_filter (p : κ → Bool) (k : κ) (t : Table κ α) :
    (t.filter fun entry => p entry.1).lookup k = if p k then t.lookup k else none := by
  induction t with
  | nil => simp
  | cons entry rest ih =>
    obtain ⟨k', a⟩ := entry
    by_cases hp : p k' = true
    · rw [List.filter_cons_of_pos (by simpa using hp), lookup_cons_eq, lookup_cons_eq, ih]
      by_cases hk : k = k'
      · simp [hk, hp]
      · simp [hk]
    · rw [List.filter_cons_of_neg (by simpa using hp), ih, lookup_cons_eq]
      by_cases hk : k = k'
      · simp [hk, hp]
      · rw [if_neg hk]

/-- How keys are compared does not matter. -/
theorem lookup_lawful [b : BEq κ] [LawfulBEq κ] (k : κ) (t : Table κ α) :
    List.lookup k t = @List.lookup κ α instBEqOfDecidableEq k t := by
  have hb : b = instBEqOfDecidableEq := lawful_beq_subsingleton _ _
  rw [hb]

theorem lookup_mapped_none (f : κ → κ) (k : κ) (t : Table κ α) (h : ∀ k' ∈ keys t, f k' ≠ k) :
    (t.map fun entry => (f entry.1, entry.2)).lookup k = none := by
  rw [lookup_none]
  intro hk
  simp only [keys, List.map_map, List.mem_map, Function.comp_apply] at hk
  obtain ⟨entry, hmem, rfl⟩ := hk
  exact h entry.1 (List.mem_map_of_mem hmem) rfl

end Lookup

section Moved
open Disk

variable {source target : Place}

theorem movedPlace_below (y : Place) : movedPlace source target (source ++ y) = target ++ y := by
  have h : source.isPrefixOf (source ++ y) = true := by simp
  rw [movedPlace, if_pos h, List.drop_left]

theorem movedPlace_outside {x : Place} (h : ¬ source <+: x) :
    movedPlace source target x = x := by
  rw [movedPlace, if_neg (by simpa using h)]

variable {names : κ → Place} {f : κ → κ} {t : Table κ α}

/-- A table in which nothing lies at or below the target, moved there from the source. The keys
are known by their names from the root. -/
structure Moves (names : κ → Place) (f : κ → κ) (source target : Place) (t : Table κ α) : Prop where
  injective : Function.Injective names
  moved : ∀ k, names (f k) = movedPlace source target (names k)
  free : ∀ k ∈ keys t, ¬ target <+: names k

theorem moves_origin (h : Moves names f source target t) {k : κ} (hk : k ∈ keys t) {y : Place}
    (hy : names (f k) = target ++ y) : names k = source ++ y := by
  rw [h.moved] at hy
  by_cases hs : source <+: names k
  · obtain ⟨z, hz⟩ := hs
    rw [← hz, movedPlace_below] at hy
    rw [← hz, List.append_cancel_left hy]
  · rw [movedPlace_outside hs] at hy
    exact absurd ⟨y, hy.symm⟩ (h.free k hk)

theorem moves_nodup (h : Moves names f source target t) (hn : (keys t).Nodup) :
    (keys (t.map fun entry => (f entry.1, entry.2))).Nodup := by
  have hkeys : keys (t.map fun entry => (f entry.1, entry.2)) = (keys t).map f := by
    simp [keys, Function.comp_def]
  rw [hkeys]
  refine hn.map_on (fun a ha b hb he => h.injective ?_)
  have ha' := h.moved a
  have hb' := h.moved b
  by_cases hs : source <+: names a
  · obtain ⟨y, hy⟩ := hs
    rw [← hy, movedPlace_below] at ha'
    rw [← hy]
    exact (moves_origin h hb (by rw [← he, ha'])).symm
  · rw [movedPlace_outside hs] at ha'
    rw [← he] at hb'
    by_cases hw : source <+: names b
    · obtain ⟨y, hy⟩ := hw
      rw [← hy, movedPlace_below] at hb'
      rw [moves_origin h ha hb', hy]
    · rw [movedPlace_outside hw] at hb'
      exact ha'.symm.trans hb'

variable [DecidableEq κ]

theorem moves_arrived (h : Moves names f source target t) {before after : κ} {y : Place}
    (hf : names before = source ++ y) (ht : names after = target ++ y) :
    (t.map fun entry => (f entry.1, entry.2)).lookup after = t.lookup before := by
  have hto : f before = after := h.injective (by rw [h.moved, hf, movedPlace_below, ht])
  rw [← hto]
  refine lookup_mapped f before t (fun k hk he => h.injective ?_)
  rw [hf]
  exact moves_origin h hk (by rw [he, hto, ht])

theorem moves_left (h : Moves names f source target t) {k : κ} (hs : source <+: names k)
    (ht : ¬ target <+: names k) :
    (t.map fun entry => (f entry.1, entry.2)).lookup k = none := by
  refine lookup_mapped_none f k t (fun k' hk' he => ?_)
  have hm := h.moved k'
  rw [he] at hm
  by_cases hw : source <+: names k'
  · obtain ⟨y, hy⟩ := hw
    rw [← hy, movedPlace_below] at hm
    exact ht ⟨y, hm.symm⟩
  · rw [movedPlace_outside hw] at hm
    exact hw (hm ▸ hs)

theorem moves_elsewhere (h : Moves names f source target t) {k : κ} (hs : ¬ source <+: names k)
    (ht : ¬ target <+: names k) :
    (t.map fun entry => (f entry.1, entry.2)).lookup k = t.lookup k := by
  have hk : f k = k := h.injective (by rw [h.moved, movedPlace_outside hs])
  conv_lhs => rw [← hk]
  refine lookup_mapped f k t (fun k' _ he => h.injective ?_)
  have hm := h.moved k'
  rw [he, hk] at hm
  by_cases hw : source <+: names k'
  · obtain ⟨y, hy⟩ := hw
    rw [← hy, movedPlace_below] at hm
    exact absurd ⟨y, hm.symm⟩ ht
  · rw [movedPlace_outside hw] at hm
    exact hm.symm

theorem Moves.relocated (h : Moves names f source target t) (key : Place → κ)
    (hkey : ∀ x, names (key x) = x) :
    Tree.Relocated (fun x => t.lookup (key x))
      (fun x => (t.map fun entry => (f entry.1, entry.2)).lookup (key x)) source target where
  arrived := fun _ => moves_arrived h (hkey _) (hkey _)
  left := fun _ hs ht => moves_left h (by rwa [hkey]) (by rwa [hkey])
  elsewhere := fun _ hs ht => moves_elsewhere h (by rwa [hkey]) (by rwa [hkey])

end Moved

end VolumeFS.Table
