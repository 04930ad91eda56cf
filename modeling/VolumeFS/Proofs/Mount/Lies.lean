import VolumeFS.Proofs.Disk.Trimmed
import VolumeFS.Proofs.Disk.Vacant
import VolumeFS.Proofs.Mount.Linked

/-!
# What lies below a directory, and what paths below it name

The path of a directory may lead through links, and so may the paths below it:
by a link to a directory they name what lies elsewhere, and the same place by
many names. Where no link below leads to a directory each place has the one path
that the names on the way to it spell, and nothing outside is named. Fewer links
may have been taken on that path than on any other to the place, so that what is
seen on some path is seen on it.
-/

set_option autoImplicit false

namespace VolumeFS.Mount

open Disk

variable {t : Mount Run} {d : Disk} {x : List String} {base : Place}

/-- On a rooted disk the path of `x` ends at a directory, and not at a link to one. -/
structure Lies (t : Mount Run) (d : Disk) (x : List String) (base : Place) : Prop where
  rooted : d.Rooted
  named : t.directory ≠ ""
  fits : t.Fits x
  path : ∃ y n, base = y ++ [n] ∧ d.parent (t.localPath (.ofNames x)) = .ok (y, .name n true)
  directory : ∃ mode, d.node? base = some (.directory mode)

/-- A path at or below that of `x` ends at the place, and what is seen there is of the kind. -/
def Named (t : Mount Run) (d : Disk) (x : List String) (place : Place) (kind : EntryKind) : Prop :=
  ∃ z y n bare, (∀ m ∈ z, EntryName m) ∧ place = y ++ [n] ∧
    d.parent (t.localPath (.ofNames (x ++ z))) = .ok (y, .name n bare) ∧
    seen (t.localPath (.ofNames (x ++ z))) d = .ok (some kind)

def Links (t : Mount Run) (d : Disk) (x : List String) (base : Place)
    (So : Except Fault (Option EntryKind) → Prop) : Prop :=
  ∀ z target, d.node? (base ++ z) = some (.link target) →
    So (seen (t.localPath (.ofNames (x ++ z))) d)

section Lies

variable (h : t.Lies d x base)

include h

theorem Lies.onward : d.Onward (t.localPath (.ofNames x)) base [] := by
  obtain ⟨y, n, rfl, hp⟩ := h.path
  obtain ⟨mode, hdir⟩ := h.directory
  exact (parent_onward hp).down (h.rooted.layout.name y n _ hdir) hdir

/-- A path below that of `x` ends with its last name, in what the path above it leads to. -/
theorem Lies.parent_below {z : List String} {n : String} (hn : IsName n) {y : Place}
    {ending : Ending} (hp : d.parent (t.localPath (.ofNames (x ++ (z ++ [n])))) = .ok (y, ending)) :
    ending = .name n true ∧ d.Onward (t.localPath (.ofNames (x ++ (z ++ [n])))) y [n] ∧
      d.Onward (t.localPath (.ofNames (x ++ z))) y [] := by
  obtain ⟨start, ps, left, hroute, rfl, hway⟩ := parent_way.1 hp
  obtain ⟨-, -, -, -, rfl⟩ := route_ok.1 hroute
  obtain ⟨before, hparts, -⟩ := (localPath_below (t := t) h.named (x ++ z) (z := [n])
    (by simpa using hn)).parts
  rw [List.append_assoc] at hparts
  rw [hparts, splitLast_name hn] at hway
  have hgo : d.Onward (t.localPath (.ofNames (x ++ (z ++ [n])))) y [n] :=
    ⟨start, before, left, by rw [hroute, hparts], hway⟩
  refine ⟨by rw [hparts, splitLast_name hn], hgo, onward_upper h.named (z := [n]) ?_ ?_⟩
  · simpa using hn
  · rwa [List.append_assoc]

/-- If no link leads to a directory, the directories that paths below lead to lie where the paths
say. -/
theorem Lies.inside (hlinks : t.Links d x base (· ≠ .ok (some .directory))) {z : List String}
    (hz : ∀ m ∈ z, EntryName m) {y : Place}
    (hgo : d.Onward (t.localPath (.ofNames (x ++ z))) y []) : y = base ++ z := by
  induction z using List.reverseRecOn generalizing y with
  | nil =>
    obtain ⟨mode, hfound⟩ := hgo.here
    obtain ⟨mode', hbase⟩ := h.onward.here
    rw [List.append_nil] at hfound ⊢
    cases hfound.symm.trans hbase
    rfl
  | append_singleton z n ih =>
    have hn := hz n (by simp)
    rw [← List.append_assoc] at hgo
    obtain ⟨mode, hfound⟩ := hgo.here
    obtain ⟨y', habove, hlast⟩ := onward_above h.named (z := [n]) (by simpa using hn.name) hgo
    obtain rfl := ih (fun m hm => hz m (by simp [hm])) habove
    rw [← List.append_assoc]
    cases ha : d.node? (base ++ z ++ [n]) with
    | none =>
      have hnone : ∀ target, d.node? (base ++ z ++ [n]) ≠ some (.link target) := by
        intro target hlink
        cases ha.symm.trans hlink
      rw [find_eq_ok, hlast.last hn hnone, ha] at hfound
      cases hfound
    | some a =>
      cases a with
      | directory mode'' =>
        obtain ⟨mode₁, hthere⟩ := (hlast.down hn ha).here
        cases hfound.symm.trans hthere
        rfl
      | file number => cases hfound.symm.trans (hlast.find_file hn ha)
      | link target =>
        rw [List.append_assoc] at ha hgo
        exact absurd (seen_directory hgo) (hlinks _ target ha)

/-- If no link leads to a directory, all that paths at or below that of `x` name lies there. -/
theorem Lies.named_inside (hlinks : t.Links d x base (· ≠ .ok (some .directory))) {place : Place}
    {kind : EntryKind} (hnamed : t.Named d x place kind) : base <+: place := by
  obtain ⟨z, y, n, bare, hz, rfl, hp, -⟩ := hnamed
  obtain rfl | ⟨z, m, rfl⟩ := List.eq_nil_or_concat' z
  · obtain ⟨y', n', rfl, hp'⟩ := h.path
    rw [List.append_nil] at hp
    cases hp.symm.trans hp'
    exact List.prefix_refl _
  · obtain ⟨hending, -, habove⟩ := h.parent_below (hz m (by simp)).name hp
    cases hending
    rw [h.inside hlinks (fun k hk => hz k (by simp [hk])) habove, List.append_assoc]
    exact List.prefix_append _ _

/-- Directories below are on the way of their paths. -/
theorem Lies.along {z v : List String} (hfits : t.Fits (x ++ (z ++ v)))
    (hdirs : ∀ u, u <+: z → ∃ mode, d.node? (base ++ u) = some (.directory mode)) :
    d.Onward (t.localPath (.ofNames (x ++ (z ++ v)))) (base ++ z) v :=
  (onward_below h.named h.onward hfits).along
    (fun m hm => hfits.names m (by simp [hm])) hdirs

/-- Where a file is seen at a link on one path, it is seen there on the path without links, on which
no fewer of them may be taken. -/
theorem Lies.file_seen {y : List String} {n : String} (hfits : t.Fits (x ++ (y ++ [n])))
    (hdirs : ∀ u, u <+: y → ∃ mode, d.node? (base ++ u) = some (.directory mode))
    (hnamed : t.Named d x (base ++ (y ++ [n])) .file) :
    seen (t.localPath (.ofNames (x ++ (y ++ [n])))) d = .ok (some .file) := by
  obtain ⟨z, y', n', bare, hz, hplace, hp, hseen⟩ := hnamed
  rw [← List.append_assoc] at hplace
  obtain ⟨rfl, he⟩ := List.append_inj' hplace rfl
  obtain rfl := List.singleton_inj.1 he
  obtain rfl | ⟨z, m, rfl⟩ := List.eq_nil_or_concat' z
  · -- the path of `x` itself ends higher up
    obtain ⟨y', n', hbase, hp'⟩ := h.path
    rw [List.append_nil] at hp
    cases hp.symm.trans hp'
    have hlength := congrArg List.length hbase
    simp at hlength
  · obtain ⟨hending, hgo, -⟩ := h.parent_below (hz m (by simp)).name hp
    cases hending
    obtain ⟨left, hreal, hlast⟩ := onward_resolve h.named h.onward
    obtain ⟨place, number, hfind⟩ := find_file_seen hseen
    have hwalk := hlast z n (base ++ y) _ (fun k hk => (hz k hk).name) hgo (find_eq_ok.1 hfind)
    have halong : Way d left base y left (base ++ y) :=
      .along (fun k hk => hfits.names k (by simp [hk])) hdirs
    have hthere : d.find (t.localPath (.ofNames (x ++ (y ++ [n])))) =
        .ok (place, .file number) := by
      rw [find_eq_ok, hreal _ hfits, halong.walk [n], hwalk]
    exact seen_file hthere

/-- Where each link is named as a file by some path, files are seen where there are links. -/
theorem Lies.files_linked
    (hfits : ∀ z a, d.node? (base ++ z) = some a → t.Fits (x ++ z))
    (hnamed : ∀ z target, d.node? (base ++ z) = some (.link target) →
      t.Named d x (base ++ z) .file) : t.Links d x base (· = .ok (some .file)) := by
  intro z target hlink
  obtain rfl | ⟨z, n, rfl⟩ := List.eq_nil_or_concat' z
  · obtain ⟨mode, hdir⟩ := h.directory
    rw [List.append_nil] at hlink
    cases hlink.symm.trans hdir
  · refine h.file_seen (hfits _ _ hlink) (fun u hu => ?_) (hnamed _ target hlink)
    obtain ⟨v, rfl⟩ := hu
    refine h.rooted.directory_above (y := v ++ [n]) (by simp) (a := .link target) ?_
    simpa using hlink

end Lies

section Found

variable (h : t.Lies d x base) {z : List String} {a : Node} (ha : d.node? (base ++ z) = some a)
  (hfits : t.Fits (x ++ z))

include h ha hfits

theorem Lies.parent_found : ∃ y n, base ++ z = y ++ [n] ∧
    d.parent (t.localPath (.ofNames (x ++ z))) = .ok (y, .name n true) ∧ EntryName n := by
  obtain rfl | ⟨z, n, rfl⟩ := List.eq_nil_or_concat' z
  · obtain ⟨y, n, rfl, hp⟩ := h.path
    rw [List.append_nil] at ha ⊢
    rw [List.append_nil]
    exact ⟨y, n, rfl, hp, h.rooted.layout.name y n a ha⟩
  · have hn := hfits.names n (by simp)
    refine ⟨base ++ z, n, (List.append_assoc _ _ _).symm, ?_, hn⟩
    refine (h.along hfits fun u hu => ?_).parent hn
    obtain ⟨v, rfl⟩ := hu
    refine h.rooted.directory_above (a := a) (y := v ++ [n]) (by simp) ?_
    simpa using ha

omit ha in
theorem Lies.onward_found {mode : UInt32} (hdir : d.node? (base ++ z) = some (.directory mode)) :
    d.Onward (t.localPath (.ofNames (x ++ z))) (base ++ z) [] := by
  have hgo := h.along (z := z) (v := []) (by simpa using hfits) fun u hu => ?_
  · simpa using hgo
  · obtain ⟨v, rfl⟩ := hu
    by_cases hv : v = []
    · subst hv
      exact ⟨mode, by simpa using hdir⟩
    · rw [← List.append_assoc] at hdir
      exact h.rooted.directory_above hv hdir

/-- What is there is seen, if files are seen where there are links. -/
theorem Lies.seen_found (hlinks : t.Links d x base (· = .ok (some .file))) :
    seen (t.localPath (.ofNames (x ++ z))) d = .ok (some a.kind) := by
  cases a with
  | directory mode => exact seen_directory (h.onward_found hfits ha)
  | file number =>
    obtain rfl | ⟨z, n, rfl⟩ := List.eq_nil_or_concat' z
    · obtain ⟨mode, hbase⟩ := h.directory
      rw [List.append_nil] at ha
      cases ha.symm.trans hbase
    · rw [← List.append_assoc] at ha
      refine seen_file ((h.along hfits fun u hu => ?_).find_file (hfits.names n (by simp)) ha)
      obtain ⟨v, rfl⟩ := hu
      refine h.rooted.directory_above (y := v ++ [n]) (by simp) (a := .file number) ?_
      simpa using ha
  | link target => exact hlinks z target ha

end Found

/-- The path still leads there when only something below is gone. -/
theorem Lies.trimmed (h : t.Lies d x base) (hway : (d.emptied base).parent
      (t.localPath (.ofNames x)) = d.parent (t.localPath (.ofNames x))) {d' : Disk}
    (hd' : Trimmed (fun y _ => base <+: y) d d') {z : List String} {b : Node}
    (hb : d'.node? (base ++ z) = some b) : t.Lies d' x base := by
  obtain ⟨a, hthere⟩ : ∃ a, d'.node? base = some a := by
    by_cases hz : z = []
    · rw [hz, List.append_nil] at hb
      exact ⟨b, hb⟩
    · obtain ⟨mode, hdir⟩ := hd'.rooted.directory_above hz hb
      exact ⟨_, hdir⟩
  have hkept : Kept (d.emptied base) d' := by
    refine emptied_kept (by rw [hd'.same]) fun y hy => ?_
    by_cases hbase : base <+: y
    · obtain rfl : y = base := by
        by_contra hne
        exact hy ⟨hbase, hne⟩
      rw [hthere, hd'.kept _ a hthere]
    · exact hd'.outside fun _ _ => hbase
  obtain ⟨y, n, hbase, hp⟩ := h.path
  obtain ⟨mode, hdir⟩ := h.directory
  cases hdir.symm.trans (hd'.kept base a hthere)
  exact ⟨hd'.rooted, h.named, h.fits, ⟨y, n, hbase, parent_kept (hway.trans hp) hkept⟩,
    ⟨mode, hthere⟩⟩

/-- What has nothing below it is removed by its path. -/
theorem Lies.removed (h : t.Lies d x base) (hway : (d.emptied base).parent
      (t.localPath (.ofNames x)) = d.parent (t.localPath (.ofNames x))) {d' : Disk}
    (hd' : Trimmed (fun y _ => base <+: y) d d') {z : List String} (hfits : t.Fits (x ++ z))
    {a : Node} (ha : d'.node? (base ++ z) = some a)
    (hleaf : ∀ m, d'.node? (base ++ z ++ [m]) = none) : ∃ d'',
      removal a.kind (t.localPath (.ofNames (x ++ z))) d' = .ok d'' ∧
      Trimmed (fun y _ => base <+: y) d d'' ∧
      d''.node? = Function.update d'.node? (base ++ z) none := by
  obtain ⟨y, n, hplace, hp, hn⟩ := (h.trimmed hway hd' ha).parent_found ha hfits
  obtain ⟨y', n', hplace', hp', -⟩ := h.parent_found (hd'.kept _ a ha) hfits
  rw [hplace] at ha hleaf ⊢
  have hremove := removal_there hp hn ha hleaf
  obtain ⟨hd'', -⟩ := hd'.removal (fun y₁ n₁ bare hp₁ => by
    cases hp₁.symm.trans hp'
    rw [← hplace']
    exact List.prefix_append _ _) hremove
  exact ⟨_, hremove, hd'', layout_erase rfl⟩

end VolumeFS.Mount
