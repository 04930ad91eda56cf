import VolumeFS.Proofs.Disk.Walk

/-!
# Changes of a disk

What each call of the system does to the nodes of a plain disk, once its path
was followed to the directory it ends in. The disk stays plain: a new file gets
a number of its own, only what has nothing below it is removed, and a rename
takes along all that lies below.
-/

set_option autoImplicit false

namespace VolumeFS.Disk

theorem node?_lookup (d : Disk) (x : Place) :
    d.node? x = @List.lookup _ _ instBEqOfDecidableEq x d.nodes := by
  unfold node?
  induction d.nodes with
  | nil => rfl
  | cons entry rest ih =>
    rw [Table.lookup_cons_eq, ← ih, List.lookup_cons]
    by_cases hx : x = entry.1
    · simp [hx]
    · have hb : (x == entry.1) = false := by simpa using hx
      simp [hb, hx]

theorem layout_set {d d' : Disk} {x : Place} {a : Node} (h : d'.nodes = Table.set x a d.nodes) :
    d'.node? = Function.update d.node? x (some a) := by
  funext y
  rw [node?_lookup, h]
  by_cases hy : y = x
  · rw [hy, Function.update_self, Table.lookup_set_self]
  · rw [Function.update_of_ne hy, Table.lookup_set_of_ne hy, node?_lookup]

theorem layout_erase {d d' : Disk} {x : Place} (h : d'.nodes = Table.erase x d.nodes) :
    d'.node? = Function.update d.node? x none := by
  funext y
  rw [node?_lookup, h]
  by_cases hy : y = x
  · rw [hy, Function.update_self, Table.lookup_erase_self]
  · rw [Function.update_of_ne hy, Table.lookup_erase_of_ne hy, node?_lookup]

theorem mem_keys {d : Disk} {x : Place} :
    x ∈ Table.keys d.nodes ↔ ∃ a, d.node? x = some a := by
  simp only [node?_lookup]
  exact Table.mem_keys

/-- What is somewhere after a node was put in its place is that node, or it was there before. -/
theorem node?_set {d d' : Disk} {x y : Place} {a b : Node}
    (h : d'.nodes = Table.set x a d.nodes) (hy : d'.node? y = some b) :
    (y = x ∧ b = a) ∨ d.node? y = some b :=
  Tree.update_some_cases (layout_set h ▸ hy)

theorem node?_erase {d d' : Disk} {x y : Place} {b : Node}
    (h : d'.nodes = Table.erase x d.nodes) (hy : d'.node? y = some b) : d.node? y = some b :=
  (Tree.update_none_before (layout_erase h ▸ hy)).2

def relocate (source target : Place) (d : Disk) : Disk :=
  { d with nodes := d.nodes.map fun (p, n) => (movedPlace source target p, n) }

namespace Plain

variable {d : Disk} (h : d.Plain)

include h

theorem added {d' : Disk} {x : Place} {n : String} {a : Node} {mode : UInt32} (hn : EntryName n)
    (hx : d.node? x = some (.directory mode)) (hfree : d.node? (x ++ [n]) = none)
    (hnodes : d'.nodes = Table.set (x ++ [n]) a d.nodes) (hlink : ∀ target, a ≠ .link target)
    (hbodies : d.bodies.length ≤ d'.bodies.length)
    (hnew : ∀ number, a = .file number → d.bodies.length ≤ number ∧ number < d'.bodies.length) :
    d'.Plain where
  rooted := by
    rw [layout_set hnodes]
    exact h.rooted.update_new hn hx rfl hfree
  links := by
    intro y target hy
    rcases node?_set hnodes hy with ⟨-, hb⟩ | hy
    · exact hlink target hb.symm
    · exact h.links y target hy
  numbers := by
    intro y number hy
    rcases node?_set hnodes hy with ⟨-, hb⟩ | hy
    · exact (hnew number hb.symm).2
    · exact Nat.lt_of_lt_of_le (h.numbers y number hy) hbodies
  own := by
    intro y z number hy hz
    rcases node?_set hnodes hy with ⟨rfl, hb⟩ | hy <;>
      rcases node?_set hnodes hz with ⟨rfl, hb'⟩ | hz
    · rfl
    · have hlt := h.numbers z number hz
      have hle := (hnew number hb.symm).1
      omega
    · have hlt := h.numbers y number hy
      have hle := (hnew number hb'.symm).1
      omega
    · exact h.own y z number hy hz
  unique := by
    rw [hnodes]
    exact Table.keys_set_nodup h.unique _ _

theorem erased {d' : Disk} {x : Place} (hx : x ≠ []) (hleaf : ∀ n, d.node? (x ++ [n]) = none)
    (hnodes : d'.nodes = Table.erase x d.nodes) (hbodies : d'.bodies = d.bodies) : d'.Plain where
  rooted := by
    rw [layout_erase hnodes]
    exact h.rooted.update_none hx hleaf
  links := fun y target hy => h.links y target (node?_erase hnodes hy)
  numbers := by
    intro y number hy
    rw [hbodies]
    exact h.numbers y number (node?_erase hnodes hy)
  own := fun y z number hy hz => h.own y z number (node?_erase hnodes hy) (node?_erase hnodes hz)
  unique := by
    rw [hnodes]
    exact Table.keys_erase_nodup h.unique _

/-- The bytes of files can be any. -/
theorem rewritten {d' : Disk} (hnodes : d'.nodes = d.nodes)
    (hbodies : d'.bodies.length = d.bodies.length) : d'.Plain := by
  have hlayout : d'.node? = d.node? := by
    funext y
    rw [node?, hnodes, node?]
  exact
    { rooted := by rw [hlayout]; exact h.rooted
      links := by rw [hlayout]; exact h.links
      numbers := by rw [hlayout, hbodies]; exact h.numbers
      own := by rw [hlayout]; exact h.own
      unique := by rw [hnodes]; exact h.unique }

section Relocate

variable (source : Place) {target : Place} (hfree : d.node? target = none)

include hfree

theorem relocate_moves : Table.Moves id (movedPlace source target) source target d.nodes where
  injective := Function.injective_id
  moved := fun _ => rfl
  free := by
    intro k hk ht
    obtain ⟨a, ha⟩ := mem_keys.1 hk
    have hnone : d.node? k = none := h.rooted.nothing_within hfree ht
    rw [hnone] at ha
    cases ha

theorem relocate_layout :
    Tree.Relocated d.node? (d.relocate source target).node? source target := by
  have hbefore : d.node? = fun x => @List.lookup _ _ instBEqOfDecidableEq (id x) d.nodes :=
    funext (node?_lookup d)
  have hafter : (d.relocate source target).node? =
      fun x => @List.lookup _ _ instBEqOfDecidableEq (id x) (d.relocate source target).nodes :=
    funext (node?_lookup _)
  rw [hbefore, hafter]
  exact (h.relocate_moves source hfree).relocated id fun _ => rfl

end Relocate

theorem relocated {source x : Place} {n : String} {mode : UInt32} (hn : EntryName n)
    (hfree : d.node? (x ++ [n]) = none) (hd : d.node? x = some (.directory mode))
    (hout : ¬ source <+: x ++ [n]) : (d.relocate source (x ++ [n])).Plain := by
  have hmoved := h.relocate_layout source hfree
  refine ⟨h.rooted.relocated hmoved hn hd rfl hout, ?_, ?_, ?_,
    Table.moves_nodup (h.relocate_moves source hfree) h.unique⟩
  · intro y target hy
    obtain ⟨z, hz⟩ := hmoved.origin hy
    exact h.links z target hz
  · intro y number hy
    obtain ⟨z, hz⟩ := hmoved.origin hy
    exact h.numbers z number hz
  · intro y z number hy hz
    exact hmoved.once (fun _ _ => h.own _ _ number) hy hz

end Plain

theorem isIn_iff {directory place : Place} :
    isIn directory place = true ↔ ∃ m, place = directory ++ [m] := by
  unfold isIn
  rcases List.eq_nil_or_concat place with rfl | ⟨y, m, rfl⟩
  · simp
  · rw [List.concat_eq_append, List.dropLast_concat, Bool.and_eq_true, beq_iff_eq]
    constructor
    · rintro ⟨-, rfl⟩
      exact ⟨m, rfl⟩
    · rintro ⟨m', hm⟩
      exact ⟨by simp, (List.append_inj' hm rfl).1⟩

/-- Whether anything lies directly in a directory. -/
theorem any_isIn {d : Disk} {directory : Place} :
    (d.nodes.any fun entry => isIn directory entry.1) = true ↔
      ∃ m a, d.node? (directory ++ [m]) = some a := by
  rw [List.any_eq_true]
  constructor
  · rintro ⟨entry, hmem, hin⟩
    obtain ⟨m, hm⟩ := isIn_iff.1 hin
    exact ⟨m, mem_keys.1 (hm ▸ List.mem_map_of_mem hmem)⟩
  · rintro ⟨m, ha⟩
    obtain ⟨entry, hmem, hkey⟩ := List.mem_map.1 (mem_keys.2 ha)
    exact ⟨entry, hmem, isIn_iff.2 ⟨m, hkey⟩⟩

section Calls

variable {d : Disk} {path : String} {x : Place} {n : String}
  (hp : d.parent path = .ok (x, .name n true)) (hn : EntryName n)

include hn in
theorem entry_named : d.entry x n = .ok ⟨x ++ [n], d.node? (x ++ [n])⟩ :=
  if_neg (Nat.not_lt.2 hn.short)

include hp hn

theorem createDirectory_free (hfree : d.node? (x ++ [n]) = none) :
    ∃ mode, createDirectory path d =
      .ok { d with nodes := Table.set (x ++ [n]) (.directory mode) d.nodes } := by
  refine ⟨0o755 ||| d.inheritedBits x, ?_⟩
  unfold createDirectory
  rw [hp]
  change (d.entry x n >>= _) = _
  rw [entry_named hn, hfree]
  rfl

theorem removeFile_found {number : Nat} (hfile : d.node? (x ++ [n]) = some (.file number)) :
    removeFile path d = .ok { d with nodes := Table.erase (x ++ [n]) d.nodes } := by
  unfold removeFile
  rw [hp]
  change (d.entry x n >>= _) = _
  rw [entry_named hn, hfile]
  rfl

theorem removeDirectory_empty {mode : UInt32} (hdir : d.node? (x ++ [n]) = some (.directory mode))
    (hleaf : ∀ m, d.node? (x ++ [n] ++ [m]) = none) :
    removeDirectory path d = .ok { d with nodes := Table.erase (x ++ [n]) d.nodes } := by
  have hnone : (d.nodes.any fun entry => isIn (x ++ [n]) entry.1) = false := by
    rw [← Bool.not_eq_true, any_isIn]
    rintro ⟨m, a, ha⟩
    cases (hleaf m).symm.trans ha
  unfold removeDirectory
  rw [hp]
  change (d.entry x n >>= _) = _
  rw [entry_named hn, hdir]
  change (if (d.nodes.any fun entry => isIn (x ++ [n]) entry.1) = true then _ else _) = _
  rw [hnone]
  rfl

theorem rename_free {target : String} {y : Place} {m : String} {a : Node}
    (ht : d.parent target = .ok (y, .name m true)) (hm : EntryName m)
    (hthere : d.node? (x ++ [n]) = some a) (hfree : d.node? (y ++ [m]) = none)
    (hout : ¬ x ++ [n] <+: y ++ [m]) (hout' : ¬ y ++ [m] <+: x ++ [n]) :
    rename path target d = .ok (d.relocate (x ++ [n]) (y ++ [m])) := by
  have hne : x ++ [n] ≠ y ++ [m] := fun he => hout (he ▸ List.prefix_refl _)
  have herase : Table.erase (y ++ [m]) d.nodes = d.nodes := by
    refine Table.erase_absent fun hkey => ?_
    obtain ⟨b, hb⟩ := mem_keys.1 hkey
    cases hfree.symm.trans hb
  unfold rename
  rw [hp, ht]
  change (d.entry x n >>= _) = _
  rw [entry_named hn, hthere]
  change (d.entry y m >>= _) = _
  rw [entry_named hm, hfree]
  simp only [bind, Except.bind, Bool.and_self, Bool.not_true, Bool.and_false, Bool.false_eq_true,
    if_false, if_neg hne, List.isPrefixOf_iff_prefix, if_neg hout, if_neg hout', checkReplaced,
    herase]
  rfl

/-- A directory is not moved to a place below it. -/
theorem rename_inward {target : String} {y : Place} {m : String} {mode : UInt32}
    (ht : d.parent target = .ok (y, .name m true)) (hm : EntryName m)
    (hthere : d.node? (x ++ [n]) = some (.directory mode)) (hin : x ++ [n] <+: y ++ [m])
    (hne : x ++ [n] ≠ y ++ [m]) : rename path target d = .error invalid := by
  unfold rename
  rw [hp, ht]
  change (d.entry x n >>= _) = _
  rw [entry_named hn, hthere]
  change (d.entry y m >>= _) = _
  rw [entry_named hm]
  simp only [bind, Except.bind, Node.isDirectory, Bool.not_true, Bool.false_and,
    Bool.false_eq_true, if_false, if_neg hne, List.isPrefixOf_iff_prefix, if_pos hin]
  rfl

end Calls

end VolumeFS.Disk
