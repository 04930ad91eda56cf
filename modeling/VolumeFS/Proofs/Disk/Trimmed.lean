import VolumeFS.Proofs.Disk.Linked
import VolumeFS.Proofs.Mount.Tree

/-!
# Disks from which entries are removed

A removal takes a file, a link or an empty directory away from where its path
ends. On a disk with fewer nodes a path that still leads somewhere leads where
it led before, so that what a whole row of removals took away is told by where
the paths led at the start.
-/

set_option autoImplicit false

namespace VolumeFS.Disk

/-- All nodes lie in directories, whatever the links are, and no place is listed twice. -/
structure Rooted (d : Disk) : Prop where
  layout : Tree.Rooted (fun a : Node => a.isDirectory = true) EntryName d.node?
  unique : (Table.keys d.nodes).Nodup

theorem rooted_of_listed {d : Disk} (hunique : (Table.keys d.nodes).Nodup)
    (hroot : ∃ mode, d.node? [] = some (.directory mode))
    (h : ∀ x n, x ++ [n] ∈ Table.keys d.nodes →
      EntryName n ∧ ∃ mode, d.node? x = some (.directory mode)) : d.Rooted where
  layout := by
    obtain ⟨mode, hroot⟩ := hroot
    refine ⟨⟨_, hroot, rfl⟩, fun x n a ha => (h x n (mem_keys.2 ⟨a, ha⟩)).1, fun x n a ha => ?_⟩
    obtain ⟨-, mode, hdir⟩ := h x n (mem_keys.2 ⟨a, ha⟩)
    exact ⟨_, hdir, rfl⟩
  unique := hunique

theorem Rooted.directory_above {d : Disk} (h : d.Rooted) {x y : Place} {a : Node} (hy : y ≠ [])
    (hx : d.node? (x ++ y) = some a) : ∃ mode, d.node? x = some (.directory mode) := by
  obtain ⟨b, hb, hdir⟩ := h.layout.directory_above hy hx
  obtain ⟨mode, rfl⟩ := isDirectory_iff.1 hdir
  exact ⟨mode, hb⟩

def removal (kind : EntryKind) (path : String) : Disk → Except IoError Disk :=
  match kind with
  | .file => removeFile path
  | .directory => removeDirectory path

def emptied (base : Place) (d : Disk) : Disk :=
  { d with nodes := d.nodes.filter fun (p, _) => !(base.isPrefixOf p && p != base) }

theorem emptied_kept {d d' : Disk} {base : Place} (hcurrent : d'.current = d.current)
    (h : ∀ x, ¬ (base <+: x ∧ x ≠ base) → d'.node? x = d.node? x) : Kept (d.emptied base) d' where
  current := hcurrent
  nodes := by
    intro x a hx
    rw [node?_lookup, emptied, Table.lookup_filter fun p => !(base.isPrefixOf p && p != base)] at hx
    split_ifs at hx with hout
    · have hstay : ¬ (base <+: x ∧ x ≠ base) := by
        rintro ⟨hbelow, hne⟩
        simp [List.isPrefixOf_iff_prefix.2 hbelow, hne] at hout
      rw [h x hstay, node?_lookup]
      exact hx

section Parent

variable {d d' : Disk} {path : String} {x : Place} {ending : Ending}

theorem parent_kept (h : d.parent path = .ok (x, ending)) (hd : Kept d d') :
    d'.parent path = .ok (x, ending) := by
  obtain ⟨start, ps, left, hroute, hending, hway⟩ := parent_way.1 h
  refine parent_way.2 ⟨start, ps, left, ?_, hending, hway.kept hd⟩
  rw [route_ok] at hroute ⊢
  rwa [hd.current]

theorem splitLast_bare {ps : List String} {n : String} (h : (splitLast ps).2 = .name n true) :
    ps = (splitLast ps).1 ++ [n] := by
  unfold splitLast at h ⊢
  have hfirst := List.head?_dropWhile_not (fun part : String => decide (part = "")) ps.reverse
  cases hdrop : ps.reverse.dropWhile (· = "") with
  | nil =>
    rw [hdrop] at h
    cases h
  | cons last before =>
    rw [hdrop] at h hfirst
    have hlast : ¬ last = "" := of_decide_eq_false hfirst
    dsimp only at h ⊢
    split_ifs at h
    obtain ⟨rfl, hend⟩ := Ending.name.inj h
    obtain ⟨front, rfl⟩ := List.getLast?_eq_some_iff.1 (of_decide_eq_true hend)
    rw [List.reverse_append, List.reverse_singleton, List.singleton_append,
      List.dropWhile_cons_of_neg (by simpa using hlast)] at hdrop
    obtain ⟨-, rfl⟩ := List.cons.inj hdrop
    rw [List.reverse_reverse]

theorem parent_onward {n : String} (h : d.parent path = .ok (x, .name n true)) :
    d.Onward path x [n] := by
  obtain ⟨start, ps, left, hroute, hending, hway⟩ := parent_way.1 h
  refine ⟨start, _, left, ?_, hway⟩
  rw [← splitLast_bare hending, hroute]

end Parent

section Removal

variable {d d' : Disk} {path : String} {kind : EntryKind}

theorem Rooted.erased (h : d.Rooted) {x : Place} (hx : x ≠ [])
    (hleaf : ∀ n, d.node? (x ++ [n]) = none) :
    Rooted { d with nodes := Table.erase x d.nodes } where
  layout := by
    rw [layout_erase (d := d) (x := x) rfl]
    exact h.layout.update_none hx hleaf
  unique := Table.keys_erase_nodup h.unique _

theorem entry_ok {x : Place} {n : String} {found : Found} (h : d.entry x n = .ok found) :
    found = ⟨x ++ [n], d.node? (x ++ [n])⟩ := by
  unfold entry at h
  split_ifs at h
  exact (Except.ok.inj h).symm

theorem removeFile_ok (h : removeFile path d = .ok d') : ∃ x n a,
    d.parent path = .ok (x, .name n true) ∧ d.node? (x ++ [n]) = some a ∧
      a.isDirectory = false ∧ d' = { d with nodes := Table.erase (x ++ [n]) d.nodes } := by
  obtain ⟨⟨x, ending⟩, hp, h⟩ := bind_eq_ok.1 h
  cases ending with
  | name n bare =>
    obtain ⟨found, hentry, h⟩ := bind_eq_ok.1 h
    obtain rfl := entry_ok hentry
    cases ha : d.node? (x ++ [n]) with
    | none =>
      rw [ha] at h
      cases h
    | some a =>
      rw [ha] at h
      cases bare with
      | false => cases a <;> cases h
      | true =>
        cases a with
        | directory mode => cases h
        | file number => exact ⟨x, n, _, hp, ha, rfl, (Except.ok.inj h).symm⟩
        | link target => exact ⟨x, n, _, hp, ha, rfl, (Except.ok.inj h).symm⟩
  | _ => cases h

theorem removeDirectory_ok (h : removeDirectory path d = .ok d') : ∃ x n bare mode,
    d.parent path = .ok (x, .name n bare) ∧ d.node? (x ++ [n]) = some (.directory mode) ∧
      (∀ m, d.node? (x ++ [n] ++ [m]) = none) ∧
      d' = { d with nodes := Table.erase (x ++ [n]) d.nodes } := by
  obtain ⟨⟨x, ending⟩, hp, h⟩ := bind_eq_ok.1 h
  cases ending with
  | name n bare =>
    obtain ⟨found, hentry, h⟩ := bind_eq_ok.1 h
    obtain rfl := entry_ok hentry
    cases ha : d.node? (x ++ [n]) with
    | none =>
      rw [ha] at h
      cases h
    | some a =>
      rw [ha] at h
      cases a with
      | directory mode =>
        dsimp only at h
        split_ifs at h with hany
        · cases h
        · refine ⟨x, n, bare, mode, hp, ha, fun m => ?_, (Except.ok.inj h).symm⟩
          by_contra hne
          exact hany (any_isIn.2 ⟨m, Option.ne_none_iff_exists'.1 hne⟩)
      | file number => cases h
      | link target => cases h
  | _ => cases h

/-- What is removed has nothing below it. -/
theorem removal_ok (hd : d.Rooted) (h : removal kind path d = .ok d') : ∃ x n bare a,
    d.parent path = .ok (x, .name n bare) ∧ d.node? (x ++ [n]) = some a ∧ a.kind = kind ∧
      (∀ m, d.node? (x ++ [n] ++ [m]) = none) ∧
      d' = { d with nodes := Table.erase (x ++ [n]) d.nodes } := by
  cases kind with
  | file =>
    obtain ⟨x, n, a, hp, ha, hnot, hd'⟩ := removeFile_ok h
    refine ⟨x, n, true, a, hp, ha, by simp [Node.kind, hnot], fun m => ?_, hd'⟩
    refine hd.layout.nothing_below (by simp) fun b hb => ?_
    cases ha.symm.trans hb
    simp [hnot]
  | directory =>
    obtain ⟨x, n, bare, mode, hp, ha, hleaf, hd'⟩ := removeDirectory_ok h
    exact ⟨x, n, bare, _, hp, ha, rfl, hleaf, hd'⟩

theorem removal_there {x : Place} {n : String} {a : Node} (hp : d.parent path = .ok (x, .name n true))
    (hn : EntryName n) (ha : d.node? (x ++ [n]) = some a)
    (hleaf : ∀ m, d.node? (x ++ [n] ++ [m]) = none) :
    removal a.kind path d = .ok { d with nodes := Table.erase (x ++ [n]) d.nodes } := by
  cases a with
  | directory mode => exact removeDirectory_empty hp hn ha hleaf
  | file number => exact removeFile_found hp hn ha
  | link target =>
    change removeFile path d = _
    unfold removeFile
    rw [hp]
    change (d.entry x n >>= _) = _
    rw [entry_named hn, ha]
    rfl

end Removal

/-- Some entries were removed from the disk, each where the predicate says that one of its kind may
be. -/
structure Trimmed (May : Place → EntryKind → Prop) (d d' : Disk) : Prop where
  same : d' = { d with nodes := d'.nodes }
  kept : ∀ x a, d'.node? x = some a → d.node? x = some a
  gone : ∀ x a, d.node? x = some a → d'.node? x = none → May x a.kind
  rooted : d'.Rooted

namespace Trimmed

variable {May : Place → EntryKind → Prop} {d d' d'' : Disk}

theorem refl (hd : d.Rooted) : Trimmed May d d where
  same := rfl
  kept := fun _ _ h => h
  gone := by
    intro x a ha hnone
    rw [ha] at hnone
    cases hnone
  rooted := hd

theorem lesser (h : Trimmed May d d') : Kept d' d := ⟨h.kept, by rw [h.same]⟩

theorem outside (h : Trimmed May d d') {x : Place}
    (hx : ∀ a, d.node? x = some a → ¬ May x a.kind) : d'.node? x = d.node? x := by
  cases ha : d.node? x with
  | none =>
    by_contra hne
    obtain ⟨a, hthere⟩ := Option.ne_none_iff_exists'.1 hne
    cases ha.symm.trans (h.kept x a hthere)
  | some a =>
    cases hthere : d'.node? x with
    | none => exact absurd (h.gone x a ha hthere) (hx a ha)
    | some b => rw [← ha, h.kept x b hthere]

/-- One more entry is removed: where its path led at the start. -/
theorem removal (h : Trimmed May d d') {kind : EntryKind} {path : String}
    (hmay : ∀ x n bare, d.parent path = .ok (x, .name n bare) → May (x ++ [n]) kind)
    (hremove : Disk.removal kind path d' = .ok d'') : Trimmed May d d'' ∧
      (∀ x a, d''.node? x = some a → d'.node? x = some a) ∧
      ∃ x n bare, d.parent path = .ok (x, .name n bare) ∧ d''.node? (x ++ [n]) = none := by
  obtain ⟨x, n, bare, a, hp, ha, rfl, hleaf, rfl⟩ := removal_ok h.rooted hremove
  have hlayout : ({ d' with nodes := Table.erase (x ++ [n]) d'.nodes } : Disk).node? =
      Function.update d'.node? (x ++ [n]) none := layout_erase rfl
  have hback : ∀ y b, ({ d' with nodes := Table.erase (x ++ [n]) d'.nodes } : Disk).node? y =
      some b → d'.node? y = some b := fun _ _ => node?_erase rfl
  have hstart := parent_kept hp h.lesser
  refine ⟨⟨?_, fun y b hy => h.kept y b (hback y b hy), fun y b hb hnone => ?_,
    h.rooted.erased (by simp) hleaf⟩, hback, x, n, bare, hstart, ?_⟩
  · rw [h.same]
  · rw [hlayout] at hnone
    by_cases he : y = x ++ [n]
    · subst he
      cases hb.symm.trans (h.kept _ a ha)
      exact hmay x n bare hstart
    · rw [Function.update_of_ne he] at hnone
      exact h.gone y b hb hnone
  · rw [hlayout, Function.update_self]

end Trimmed

end VolumeFS.Disk
