import Mathlib.Data.List.Perm.Subperm
import VolumeFS.Proofs.Tree.Mkdirs
import VolumeFS.Proofs.Tree.Remove
import VolumeFS.Proofs.Volume.Reachable

/-!
# The volume as a served tree

The client's single-entry steps act on the entries of a well-formed volume as
the tree operations need it, wherever a path consists of names.
-/

set_option autoImplicit false

namespace VolumeFS

open Volume

def Volume.Entry.kind (e : Entry) : EntryKind :=
  if e.content.isDirectory then .directory else .file

def World.entries (w : World) : Tree.Layout Entry := fun x => w.volume.find? ⟨x⟩

namespace Volume

theorem kind_directory {e : Entry} : e.kind = .directory ↔ e.content = .directory := by
  unfold Entry.kind
  cases e.content <;> simp [Content.isDirectory]

theorem nameIn_child {x : List String} {k : Key} {n : String} :
    (Key.mk x).nameIn? k = some n ↔ k = ⟨x ++ [n]⟩ := by
  unfold Key.nameIn?
  rcases key_cases k with rfl | ⟨y, m, rfl⟩
  · simp [Key.parent?, Key.root]
  · rw [key_parent]
    by_cases hy : y = x
    · simp [hy]
    · simp [hy]

theorem list_directory {v : Volume} {x : List String} {d : Entry} (hd : v.find? ⟨x⟩ = some d)
    (hdir : d.content = .directory) : v.list ⟨x⟩ =
      .ok (Text.sortedNames (v.entries.filterMap fun entry => (Key.mk x).nameIn? entry.1)) := by
  obtain ⟨content, mode, uid, gid⟩ := d
  obtain rfl : content = .directory := hdir
  simp only [list, hd]

theorem mem_list {v : Volume} {x : List String} {n : String} :
    n ∈ Text.sortedNames (v.entries.filterMap fun entry => (Key.mk x).nameIn? entry.1) ↔
      ∃ e, v.find? ⟨x ++ [n]⟩ = some e := by
  rw [Text.sortedNames, List.mem_mergeSort, List.mem_filterMap, ← mem_keys]
  constructor
  · rintro ⟨entry, hmem, hn⟩
    exact List.mem_map.2 ⟨entry, hmem, nameIn_child.1 hn⟩
  · intro hk
    obtain ⟨entry, hmem, hk⟩ := List.mem_map.1 hk
    exact ⟨entry, hmem, nameIn_child.2 hk⟩

theorem WellFormed.list_names {v : Volume} (h : v.WellFormed) {k : Key} {names : List String}
    (hl : v.list k = .ok names) : ∀ n ∈ names, IsName n := by
  obtain ⟨x⟩ := k
  unfold list at hl
  split at hl
  · cases hl
    intro n hn
    obtain ⟨e, he⟩ := mem_list.1 hn
    exact h.name x n e he
  · cases hl
  · cases hl

theorem WellFormed.list_nodup {v : Volume} (h : v.WellFormed) (x : List String) :
    (Text.sortedNames (v.entries.filterMap fun entry => (Key.mk x).nameIn? entry.1)).Nodup := by
  have hkeys : (v.entries.filterMap fun entry => (Key.mk x).nameIn? entry.1) =
      (Table.keys v.entries).filterMap (Key.mk x).nameIn? := by
    rw [Table.keys, List.filterMap_map]
    rfl
  rw [Text.sortedNames, hkeys]
  refine (List.mergeSort_perm _ _).nodup_iff.2 (h.unique.filterMap ?_)
  intro a b n ha hb
  rw [nameIn_child.1 ha, nameIn_child.1 hb]

theorem places_bounded {v : Volume} {l : List (List String)} (hl : l.Nodup)
    (hfound : ∀ x ∈ l, ∃ e, v.find? ⟨x⟩ = some e) : l.length ≤ v.entries.length := by
  have hinj : Function.Injective Key.mk := fun a b hab => by simpa using hab
  have hsub : l.map Key.mk ⊆ Table.keys v.entries := by
    intro k hk
    obtain ⟨x, hx, rfl⟩ := List.mem_map.1 hk
    exact mem_keys.2 (hfound x hx)
  have hlen := ((hl.map hinj).subperm hsub).length_le
  simpa [Table.keys] using hlen

end Volume

namespace Client

theorem tree_kind {x : List String} (hx : ∀ n ∈ x, IsName n) (w : World) :
    outcome ((tree : Tree Run).kind (.ofNames x)) w = (.ok ((w.entries x).map Entry.kind), w) := by
  change outcome (VolumeAccess.stat (key (.ofNames x)) >>= _) w = _
  rw [Path.ofNames_key hx, outcome_bind_ok (outcome_stat _ w)]
  unfold stat? World.entries
  cases w.volume.find? ⟨x⟩ <;> rfl

theorem entries_put (w : World) (x : List String) (e : Entry) :
    ({ w with volume := w.volume.put ⟨x⟩ e } : World).entries =
      Function.update w.entries x (some e) :=
  layout_put x e w.volume

theorem entries_erased (w : World) {v : Volume} {x : List String}
    (hv : v.entries = Table.erase ⟨x⟩ w.volume.entries) :
    ({ w with volume := v } : World).entries = Function.update w.entries x none :=
  layout_erased hv

/-- Only the root has no name, and it is a directory. -/
theorem named_of_ne_root {w : World} (hw : w.volume.WellFormed) {x : List String}
    (hx : ∀ d, w.entries x = some d → d.content ≠ .directory) : ∃ y n, x = y ++ [n] := by
  rcases List.eq_nil_or_concat x with rfl | ⟨y, n, rfl⟩
  · obtain ⟨r, hr, hdir⟩ := hw.root
    exact absurd hdir (hx r hr)
  · exact ⟨y, n, List.concat_eq_append⟩

theorem named_of_free {w : World} (hw : w.volume.WellFormed) {x : List String}
    (hfree : w.entries x = none) : ∃ y n, x = y ++ [n] := by
  refine named_of_ne_root hw fun d hd => ?_
  cases hfree.symm.trans hd

theorem named_of_file {w : World} (hw : w.volume.WellFormed) {x : List String} {e : Entry}
    {data : List Byte} (he : w.entries x = some e) (hfile : e.content = .file data) :
    ∃ y n, x = y ++ [n] := by
  refine named_of_ne_root hw fun d hd hdir => ?_
  cases he.symm.trans hd
  cases hfile.symm.trans hdir

section Looks

variable {w : World} {x : List String}

theorem resolve_outcome {c : Client Run} {p q : Path} (hres : c.resolver.resolve p = .ok q)
    (w : World) : outcome (c.resolve p) w = (.ok q, w) := by
  rw [resolve, hres, outcome_of_except]

variable (hx : ∀ n ∈ x, IsName n)

include hx

theorem stat_outcome : outcome (VolumeAccess.stat (m := Run) (key (.ofNames x))) w =
    (.ok ((w.entries x).map Entry.stat), w) := by
  rw [outcome_stat, Path.ofNames_key hx]
  rfl

theorem requireStat_outcome : outcome (requireStat (m := Run) (.ofNames x)) w =
    (match w.entries x with
      | some e => .ok e.stat
      | none => .error (.notFound (Path.ofNames x).text), w) := by
  unfold requireStat
  rw [outcome_bind_ok (stat_outcome hx)]
  cases w.entries x <;> rfl

end Looks

theorem tree_serves : Tree.Serves (tree : Tree Run) Entry.kind World.entries
    (fun w => w.volume.WellFormed) (fun x => ∀ n ∈ x, IsName n) where
  root := by
    intro w hw
    obtain ⟨e, he, hdir⟩ := hw.root
    exact ⟨e, he, kind_directory.2 hdir⟩
  above := by
    intro w x n e hw he
    obtain ⟨d, hd, hdir⟩ := hw.above x n e he
    exact ⟨d, hd, kind_directory.2 hdir⟩
  fits := fun w x e hw he => hw.normal x he
  fits_above := fun x n hx => ⟨fun m hm => hx m (by simp [hm]), hx n (by simp)⟩
  kind := fun w x _ hx _ => tree_kind hx w
  make := by
    intro w x n d hw hx hd hdir hfree
    rw [kind_directory] at hdir
    have hmade := add_free hfree hd hdir .directory 0o755
    refine ⟨{ w with volume := w.volume.put ⟨x ++ [n]⟩ (w.volume.newEntry .directory 0o755) },
      w.volume.newEntry .directory 0o755, ?_,
      hw.put_new (hx n (by simp)) hd hdir hfree (by decide : (0o755 : UInt32) ≤ 0o7777)
        (Nat.zero_le _),
      rfl, entries_put w _ _⟩
    change outcome (VolumeAccess.makeDirectory (key (.ofNames (x ++ [n])))) w = _
    rw [Path.ofNames_key hx]
    exact outcome_update_ok hmade
  childNames := by
    intro w x d hw hd hdir
    refine ⟨_, ?_, hw.list_nodup x, fun n => mem_list⟩
    change outcome (VolumeAccess.list (key (.ofNames x))) w = _
    rw [Path.ofNames_key (hw.normal x hd), outcome_list,
      list_directory hd (kind_directory.1 hdir)]
  removeEntry := by
    intro w x e hw hx he hleaf
    have hroot : Key.mk x ≠ .root := fun h0 => hx (by simpa [Key.root] using h0)
    obtain ⟨v, hv, hentries, -⟩ := delete_leaf hroot he (hw.hasBelow_childless hleaf)
    refine ⟨_, ?_, hw.erased hx hleaf hentries, entries_erased w hentries⟩
    change outcome (VolumeAccess.delete (key (.ofNames x))) w = _
    rw [Path.ofNames_key (hw.normal x he)]
    exact outcome_update_ok hv
  reach := by
    intro w hw
    refine ⟨w.volume.entries.length, rfl, fun l hl hdirs => places_bounded hl fun x hx => ?_⟩
    obtain ⟨d, hd, -⟩ := hdirs x hx
    exact ⟨d, hd⟩

end Client

end VolumeFS
