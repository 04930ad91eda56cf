import VolumeFS.Proofs.Tree.Layout
import VolumeFS.Proofs.Volume.Entries

/-!
# Well-formed volumes

In a well-formed volume the root is a directory, every other entry has a name
and lies in a directory, modes are permission bits, and no file is longer than
a file can be. Each change of a volume keeps this: what is added is added to a
directory, what is removed has nothing below it, and a rename takes along all
that lies below.
-/

set_option autoImplicit false

namespace VolumeFS.Volume

structure WellFormed (v : Volume) : Prop where
  root : ∃ e, v.find? .root = some e ∧ e.content = .directory
  name : ∀ x n e, v.find? ⟨x ++ [n]⟩ = some e → IsName n
  above : ∀ x n e, v.find? ⟨x ++ [n]⟩ = some e →
    ∃ d, v.find? ⟨x⟩ = some d ∧ d.content = .directory
  mode : ∀ k e, v.find? k = some e → e.mode ≤ 0o7777
  length : ∀ k e, v.find? k = some e → e.content.length ≤ longest
  unique : (Table.keys v.entries).Nodup

theorem mode_bits (mode : UInt32) : mode &&& 0o7777 ≤ 0o7777 := by
  rw [UInt32.le_iff_toNat_le, UInt32.toNat_and]
  exact Nat.and_le_right

theorem empty_wellFormed (name : String) (uid gid : UInt32) :
    (empty name uid gid).WellFormed := by
  have hfind : ∀ k e, (empty name uid gid).find? k = some e →
      k = .root ∧ e = ⟨.directory, 0o755, uid, gid⟩ := by
    intro k e h
    simp only [empty, find?, Table.lookup_cons_eq, List.lookup_nil] at h
    split_ifs at h with hk
    exact ⟨hk, by simpa using h.symm⟩
  have hchild : ∀ x n e, (empty name uid gid).find? ⟨x ++ [n]⟩ ≠ some e := by
    intro x n e h
    simpa [Key.root] using (hfind _ _ h).1
  exact
    { root := ⟨⟨.directory, 0o755, uid, gid⟩, by simp [empty, find?], rfl⟩
      name := fun x n e h => absurd h (hchild x n e)
      above := fun x n e h => absurd h (hchild x n e)
      mode := by
        intro k e h
        obtain ⟨-, rfl⟩ := hfind k e h
        exact (by decide : (0o755 : UInt32) ≤ 0o7777)
      length := by
        intro k e h
        obtain ⟨-, rfl⟩ := hfind k e h
        exact Nat.zero_le _
      unique := by simp [empty] }

theorem layout_put (x : List String) (e : Entry) (v : Volume) :
    (fun y => (v.put ⟨x⟩ e).find? ⟨y⟩) = Function.update (fun y => v.find? ⟨y⟩) x (some e) := by
  funext y
  rw [find?_put]
  by_cases hy : y = x
  · rw [hy, if_pos rfl, Function.update_self]
  · rw [if_neg (by simpa using hy), Function.update_of_ne hy]

theorem layout_erased {v v' : Volume} {x : List String}
    (hv : v'.entries = Table.erase ⟨x⟩ v.entries) :
    (fun y => v'.find? ⟨y⟩) = Function.update (fun y => v.find? ⟨y⟩) x none := by
  funext y
  rw [find?, hv]
  by_cases hy : y = x
  · rw [hy, Function.update_self, Table.lookup_erase_self]
  · rw [Function.update_of_ne hy, Table.lookup_erase_of_ne (by simpa using hy), find?]

theorem find?_erase {v v' : Volume} {x : List String} {k : Key} {e : Entry}
    (hv : v'.entries = Table.erase ⟨x⟩ v.entries) (hk : v'.find? k = some e) :
    v.find? k = some e :=
  (Tree.update_none_before ((congrFun (layout_erased hv) k.names).symm.trans hk)).2

namespace WellFormed

variable {v : Volume}

theorem rooted (h : v.WellFormed) : Tree.Rooted (fun e : Entry => e.content = .directory) IsName
    (fun x => v.find? ⟨x⟩) :=
  ⟨h.root, h.name, h.above⟩

theorem normal (h : v.WellFormed) (x : List String) {e : Entry} (hx : v.find? ⟨x⟩ = some e) :
    ∀ n ∈ x, IsName n :=
  h.rooted.names hx

theorem directory_above (h : v.WellFormed) {x y : List String} (hy : y ≠ []) {e : Entry}
    (hx : v.find? ⟨x ++ y⟩ = some e) : ∃ d, v.find? ⟨x⟩ = some d ∧ d.content = .directory :=
  h.rooted.directory_above hy hx

theorem nothing_below (h : v.WellFormed) {x y : List String} (hy : y ≠ [])
    (hx : ∀ d, v.find? ⟨x⟩ = some d → d.content ≠ .directory) : v.find? ⟨x ++ y⟩ = none :=
  h.rooted.nothing_below hy hx

theorem nothing_within (h : v.WellFormed) {x z : List String} (hx : v.find? ⟨x⟩ = none)
    (hz : x <+: z) : v.find? ⟨z⟩ = none :=
  h.rooted.nothing_within hx hz

theorem childless (h : v.WellFormed) {x : List String} (hx : ∀ n, v.find? ⟨x ++ [n]⟩ = none)
    {y : List String} (hy : y ≠ []) : v.find? ⟨x ++ y⟩ = none :=
  h.rooted.childless hx hy

theorem hasBelow_childless (h : v.WellFormed) {x : List String}
    (hx : ∀ n, v.find? ⟨x ++ [n]⟩ = none) : v.hasBelow ⟨x⟩ = false := by
  rw [Bool.eq_false_iff]
  intro hb
  simp only [hasBelow, List.any_eq_true] at hb
  obtain ⟨entry, hmem, hbelow⟩ := hb
  obtain ⟨⟨y, hy⟩, hne⟩ := isBelow_iff.1 hbelow
  obtain ⟨e, he⟩ := mem_keys.1 (List.mem_map_of_mem (f := Prod.fst) hmem)
  have hkey : entry.1 = ⟨x ++ y⟩ := by rw [hy]
  have hy0 : y ≠ [] := by
    rintro rfl
    rw [List.append_nil] at hy
    exact hne hy.symm
  rw [hkey, h.childless hx hy0] at he
  cases he

/-- A directory that had nothing below it when it was asked has no children. -/
theorem childless_hasBelow {x : List String} (hb : v.hasBelow ⟨x⟩ = false) (n : String) :
    v.find? ⟨x ++ [n]⟩ = none := by
  by_contra hne
  obtain ⟨entry, hmem, hk⟩ := List.mem_map.1 (mem_keys.2 (Option.ne_none_iff_exists'.1 hne))
  simp only [hasBelow, List.any_eq_false] at hb
  apply hb entry hmem
  rw [hk]
  exact isBelow_iff.2 ⟨List.prefix_append x [n], by simp⟩

theorem of_entries (h : v.WellFormed) {v' : Volume} (hv : v'.entries = v.entries) :
    v'.WellFormed := by
  obtain ⟨name, entries, attributes, owner, capacity, refusesRenames⟩ := v'
  obtain rfl : entries = v.entries := hv
  exact ⟨h.root, h.name, h.above, h.mode, h.length, h.unique⟩

theorem put_mode (h : v.WellFormed) {k : Key} {e : Entry} (hmode : e.mode ≤ 0o7777) :
    ∀ k' a, (v.put k e).find? k' = some a → a.mode ≤ 0o7777 := by
  intro k' a ha
  rcases find?_put_cases ha with ⟨-, rfl⟩ | ha
  · exact hmode
  · exact h.mode k' a ha

theorem put_length (h : v.WellFormed) {k : Key} {e : Entry} (hlen : e.content.length ≤ longest) :
    ∀ k' a, (v.put k e).find? k' = some a → a.content.length ≤ longest := by
  intro k' a ha
  rcases find?_put_cases ha with ⟨-, rfl⟩ | ha
  · exact hlen
  · exact h.length k' a ha

theorem put_new (h : v.WellFormed) {x : List String} {n : String} (hn : IsName n) {d e : Entry}
    (hd : v.find? ⟨x⟩ = some d) (hdir : d.content = .directory)
    (hfree : v.find? ⟨x ++ [n]⟩ = none)
    (hmode : e.mode ≤ 0o7777) (hlen : e.content.length ≤ longest) :
    (v.put ⟨x ++ [n]⟩ e).WellFormed := by
  have hrooted := h.rooted.update_new (a := e) hn hd hdir hfree
  rw [← layout_put] at hrooted
  exact
    { root := hrooted.root
      name := hrooted.name
      above := hrooted.above
      mode := h.put_mode hmode
      length := h.put_length hlen
      unique := Table.keys_set_nodup h.unique _ _ }

/-- An entry may be changed as long as a directory stays one. -/
theorem put_same (h : v.WellFormed) {k : Key} {e e' : Entry} (hk : v.find? k = some e)
    (hdir : e.content = .directory → e'.content = .directory)
    (hmode : e'.mode ≤ 0o7777) (hlen : e'.content.length ≤ longest) :
    (v.put k e').WellFormed := by
  have hold : ∀ k' d, v.find? k' = some d → d.content = .directory →
      ∃ d', (v.put k e').find? k' = some d' ∧ d'.content = .directory := by
    intro k' d hd hdd
    rw [find?_put]
    split_ifs with hkk
    · subst hkk
      rw [hk] at hd
      cases hd
      exact ⟨e', rfl, hdir hdd⟩
    · exact ⟨d, hd, hdd⟩
  have hnew : ∀ k' a, (v.put k e').find? k' = some a → ∃ b, v.find? k' = some b := by
    intro k' a ha
    rcases find?_put_cases ha with ⟨rfl, -⟩ | ha
    · exact ⟨e, hk⟩
    · exact ⟨a, ha⟩
  obtain ⟨r, hr, hrdir⟩ := h.root
  exact
    { root := hold _ r hr hrdir
      name := by
        intro y m a ha
        obtain ⟨b, hb⟩ := hnew _ a ha
        exact h.name y m b hb
      above := by
        intro y m a ha
        obtain ⟨b, hb⟩ := hnew _ a ha
        obtain ⟨d, hd, hdd⟩ := h.above y m b hb
        exact hold _ d hd hdd
      mode := h.put_mode hmode
      length := h.put_length hlen
      unique := Table.keys_set_nodup h.unique _ _ }

theorem erased (h : v.WellFormed) {v' : Volume} {x : List String} (hx : x ≠ [])
    (hleaf : ∀ n, v.find? ⟨x ++ [n]⟩ = none) (hv : v'.entries = Table.erase ⟨x⟩ v.entries) :
    v'.WellFormed := by
  have hrooted := h.rooted.update_none hx hleaf
  rw [← layout_erased hv] at hrooted
  exact
    { root := hrooted.root
      name := hrooted.name
      above := hrooted.above
      mode := fun k e he => h.mode k e (find?_erase hv he)
      length := fun k e he => h.length k e (find?_erase hv he)
      unique := hv ▸ Table.keys_erase_nodup h.unique _ }

end WellFormed

section Relocate

variable {v : Volume} (h : v.WellFormed) (source : List String) {target : List String}
  (hfree : v.find? ⟨target⟩ = none)

include h hfree

theorem relocate_moves : Table.Moves Key.names (Key.moved ⟨source⟩ ⟨target⟩) source target
    v.entries where
  injective := fun ⟨_⟩ ⟨_⟩ hab => congrArg Key.mk hab
  moved := by
    intro k
    unfold Key.moved Key.isWithin Disk.movedPlace
    split_ifs <;> rfl
  free := by
    intro k hk ht
    obtain ⟨e, he⟩ := mem_keys.1 hk
    rw [h.nothing_within hfree ht] at he
    cases he

/-- The places of the entries after a rename: nothing is left at or below the source, what was
there is now at or below the target, and all else is where it was. -/
theorem relocate_layout : Tree.Relocated (fun x => v.find? ⟨x⟩)
    (fun x => (v.relocate ⟨source⟩ ⟨target⟩).find? ⟨x⟩) source target :=
  (relocate_moves h source hfree).relocated Key.mk fun _ => rfl

theorem relocate_unique : (Table.keys (v.relocate ⟨source⟩ ⟨target⟩).entries).Nodup :=
  Table.moves_nodup (relocate_moves h source hfree) h.unique

end Relocate

theorem WellFormed.relocated {v : Volume} (h : v.WellFormed) {source x : List String}
    {n : String} (hn : IsName n) {d : Entry} (hfree : v.find? ⟨x ++ [n]⟩ = none)
    (hd : v.find? ⟨x⟩ = some d) (hdir : d.content = .directory)
    (hout : ¬ source <+: x ++ [n]) : (v.relocate ⟨source⟩ ⟨x ++ [n]⟩).WellFormed := by
  have hmoved := relocate_layout h source hfree
  have hrooted := h.rooted.relocated hmoved hn hd hdir hout
  have hback : ∀ k e, (v.relocate ⟨source⟩ ⟨x ++ [n]⟩).find? k = some e →
      ∃ z, v.find? ⟨z⟩ = some e := fun k e hk => hmoved.origin hk
  refine ⟨hrooted.root, hrooted.name, hrooted.above, ?_, ?_, relocate_unique h source hfree⟩
  · intro k e hk
    obtain ⟨z, hz⟩ := hback k e hk
    exact h.mode _ e hz
  · intro k e hk
    obtain ⟨z, hz⟩ := hback k e hk
    exact h.length _ e hz

end VolumeFS.Volume
