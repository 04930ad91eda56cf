import VolumeFS.Proofs.Mount.Lies
import VolumeFS.Proofs.Mount.Logical
import VolumeFS.Proofs.Tree.Frozen

/-!
# Recursive deletes on a mount with links

A recursive delete first looks at all that it finds below the directory and then
removes it, the children before their parents. It looks by paths, and a look at a
path follows links, while a removal acts on the link. So below a link to a
directory the delete finds what lies there, wherever that is, and removes it; at
the link itself it then stops, for a link is no directory. A link that leads
nowhere is not seen, stays, and its directory with it. Only where each link leads
to a file is all removed that lies below, and nothing else.

What is found depends on the disk at the start alone, so that the removals are
those of a tree that no longer changes under the looks.
-/

set_option autoImplicit false

namespace VolumeFS.Mount

open Disk

variable {t : Mount Run} {d : Disk} {x : List String} {base : Place}

theorem kind_seen (p : Path) (w : World) :
    outcome (t.kind p) w = (seen (t.localPath p) w.disk, w) := by
  unfold seen
  exact kind_outcome p w

theorem tree_quiet (t : Mount Run) (w : World) : (t.tree : Tree Run).Quiet w where
  kind p := congrArg Prod.snd (kind_seen p w)
  childNames _ := rfl
  reach := rfl

theorem removeEntry_update (t : Mount Run) (q : Path) (kind : EntryKind) :
    (t.tree : Tree Run).removeEntry q kind =
      naming (t.localPath q) (Disk.update (removal kind (t.localPath q))) := by
  cases kind <;> rfl

theorem tree_reach (t : Mount Run) (w : World) :
    ∃ n, (t.tree : Tree Run).reach w = (n + 1, w) := by
  have hreach : (t.tree : Tree Run).reach w =
      (Nat.pow (w.disk.nodes.length + 1) pathLimit, w) := rfl
  have hpos : 0 < Nat.pow (w.disk.nodes.length + 1) pathLimit := Nat.pow_pos (Nat.succ_pos _)
  obtain ⟨n, hn⟩ := Nat.exists_eq_add_one_of_ne_zero hpos.ne'
  exact ⟨n, by rw [hreach, hn]⟩

/-- Removing an entry is the removal on the disk, or nothing. -/
theorem removeEntry_cases (q : Path) (kind : EntryKind) (w : World) :
    (∃ fault, outcome ((t.tree : Tree Run).removeEntry q kind) w = (.error fault, w)) ∨
    ∃ d, removal kind (t.localPath q) w.disk = .ok d ∧
      outcome ((t.tree : Tree Run).removeEntry q kind) w = (.ok (), { w with disk := d }) := by
  rw [removeEntry_update]
  cases hremove : removal kind (t.localPath q) w.disk with
  | error e => exact .inl ⟨_, outcome_update_error hremove⟩
  | ok d => exact .inr ⟨d, rfl, outcome_update_ok hremove⟩

/-- A row of removals trims the disk, up to the first that fails. -/
theorem removeEach_trims (May : Place → EntryKind → Prop) (p : Path)
    {all : List (Path × EntryKind)} (hall : ∀ e ∈ all, ∀ y n bare,
      d.parent (t.localPath e.1) = .ok (y, .name n bare) → May (y ++ [n]) e.2)
    {w : World} (hw : Trimmed May d w.disk) : ∃ result d',
      outcome ((t.tree : Tree Run).removeEach p all) w = (result, { w with disk := d' }) ∧
      Trimmed May d d' ∧ (∀ y a, d'.node? y = some a → w.disk.node? y = some a) ∧
      (result = .ok () → ∀ e ∈ all, ∃ y n bare,
        d.parent (t.localPath e.1) = .ok (y, .name n bare) ∧ d'.node? (y ++ [n]) = none) := by
  induction all generalizing w with
  | nil => exact ⟨.ok (), w.disk, rfl, hw, fun _ _ h => h, fun _ e he => by cases he⟩
  | cons e all ih =>
    obtain ⟨q, kind⟩ := e
    have htried := outcome_attempt ((t.tree : Tree Run).removeEntry q kind) w
    rw [Tree.removeEach]
    obtain ⟨fault, hend⟩ | ⟨d₁, hremove, hend⟩ := removeEntry_cases (t := t) q kind w
    · rw [hend] at htried
      rw [outcome_bind_ok htried]
      exact ⟨_, w.disk, rfl, hw, fun _ _ h => h, fun h => by cases h⟩
    · rw [hend] at htried
      rw [outcome_bind_ok htried]
      obtain ⟨h₁, hless, y, n, bare, hp, hgone⟩ := hw.removal (hall (q, kind) (by simp)) hremove
      obtain ⟨result, d', hrest, hd', hless', hok⟩ :=
        ih (w := { w with disk := d₁ }) (fun e he => hall e (by simp [he])) h₁
      refine ⟨result, d', hrest, hd', fun z a hz => hless z a (hless' z a hz), fun hr => ?_⟩
      refine List.forall_mem_cons.2 ⟨⟨y, n, bare, hp, ?_⟩, hok hr⟩
      by_contra hne
      obtain ⟨a, ha⟩ := Option.ne_none_iff_exists'.1 hne
      have hback := hless' _ a ha
      dsimp only at hback
      rw [hgone] at hback
      cases hback

/-- What lies at and below a place, by the path from there. -/
def hung (d : Disk) (base : Place) (x : List String) : Tree.Layout Node :=
  fun y => if x <+: y then d.node? (base ++ y.drop x.length) else none

theorem hung_below (d : Disk) (base : Place) (x z : List String) :
    hung d base x (x ++ z) = d.node? (base ++ z) := by
  rw [hung, if_pos (List.prefix_append x z), List.drop_left]

theorem hung_update {d d' : Disk} {z : List String} {a? : Option Node}
    (hd' : d'.node? = Function.update d.node? (base ++ z) a?) :
    hung d' base x = Function.update (hung d base x) (x ++ z) a? := by
  funext y
  by_cases hy : y = x ++ z
  · rw [hy, Function.update_self, hung_below, hd', Function.update_self]
  · rw [Function.update_of_ne hy]
    unfold hung
    split_ifs with hx
    · obtain ⟨v, rfl⟩ := hx
      rw [hd', List.drop_left, Function.update_of_ne (by simpa using hy)]
    · rfl

theorem hung_bounded {l : List (List String)} (hl : l.Nodup)
    (hfound : ∀ y ∈ l, x <+: y ∧ ∃ a, hung d base x y = some a) :
    l.length ≤ d.nodes.length := by
  have hbelow : ∀ y ∈ l, ∃ z a, y = x ++ z ∧ d.node? (base ++ z) = some a := by
    intro y hy
    obtain ⟨⟨z, rfl⟩, a, ha⟩ := hfound y hy
    rw [hung_below] at ha
    exact ⟨z, a, rfl, ha⟩
  have hplaces : (l.map fun y => base ++ y.drop x.length).Nodup := by
    refine hl.map_on fun y hy y' hy' he => ?_
    obtain ⟨z, a, rfl, -⟩ := hbelow y hy
    obtain ⟨z', a', rfl, -⟩ := hbelow y' hy'
    simpa using he
  have hbound := places_bounded (d := d) hplaces fun place hplace => by
    obtain ⟨y, hy, rfl⟩ := List.mem_map.1 hplace
    obtain ⟨z, a, rfl, ha⟩ := hbelow y hy
    exact ⟨a, by rwa [List.drop_left]⟩
  rwa [List.length_map] at hbound

section Delete

variable {w : World} (h : t.Lies w.disk x base)

include h

/-- Where files are seen at links, what was seen at first is a fragile tree in which no call fails,
though the files may be gone when the links are removed. -/
theorem links_fragile (hfits : ∀ z a, w.disk.node? (base ++ z) = some a → t.Fits (x ++ z))
    (hway : (w.disk.emptied base).parent (t.localPath (.ofNames x)) =
      w.disk.parent (t.localPath (.ofNames x)))
    (hlinks : t.Links w.disk x base (· = .ok (some .file))) :
    Tree.Fragile ((t.tree : Tree Run).frozen w) Node.kind (fun s => hung s.disk base x)
      (fun s => Trimmed (fun y _ => base <+: y) w.disk s.disk) .none x where
  names := by
    rintro s y a hs ⟨z, rfl⟩ ha n hn
    rw [hung_below] at ha
    exact ((hfits z a (hs.kept _ a ha)).names n hn).name
  above := by
    rintro s y n a hs ⟨z, rfl⟩ ha
    rw [List.append_assoc, hung_below] at ha
    rw [hung_below]
    rw [← List.append_assoc] at ha
    obtain ⟨mode, hdir⟩ := hs.rooted.directory_above (by simp) ha
    exact ⟨_, hdir, rfl⟩
  kind := by
    rintro s y a hs ⟨z, rfl⟩ ha
    rw [hung_below] at ha
    have hold := hs.kept _ a ha
    refine Prod.ext ?_ rfl
    change (outcome (t.kind (.ofNames (x ++ z))) w).1 = .ok (some a.kind)
    rw [kind_seen, h.seen_found hold (hfits z a hold) hlinks]
  childNames := by
    rintro s y a hs ⟨z, rfl⟩ ha hdir
    rw [hung_below] at ha
    obtain ⟨mode, rfl⟩ := isDirectory_iff.1 (kind_directory.1 hdir)
    have hgo := (h.trimmed hway hs ha).onward_found (hfits z _ (hs.kept _ _ ha)) ha
    obtain ⟨mode', hfind⟩ := hgo.here
    refine ⟨s.disk.namesIn (base ++ z), childNames_found hfind, namesIn_nodup hs.rooted.unique _,
      fun n => ?_⟩
    rw [mem_namesIn, Tree.Occupied, List.append_assoc base, List.append_assoc x, hung_below]
  removal_fails := by
    intro s y a fault _ _ _ hfail
    cases hfail
  removal := by
    rintro s y a hs ⟨z, rfl⟩ ha hleaf -
    rw [hung_below] at ha
    obtain ⟨d', hremove, hs', hnode⟩ :=
      h.removed hway hs (hfits z a (hs.kept _ a ha)) ha fun m => by
        have hm := hleaf m
        rwa [List.append_assoc, hung_below, ← List.append_assoc] at hm
    have hentry := congrArg (outcome · s) (removeEntry_update t (.ofNames (x ++ z)) a.kind)
    exact ⟨_, hentry.trans (outcome_update_ok hremove), hs', hung_update hnode⟩
  reach := by
    intro s hs
    refine ⟨Nat.pow (s.disk.nodes.length + 1) pathLimit, rfl, fun l hl hdirs => ?_⟩
    have hbound := hung_bounded (d := s.disk) hl fun y hy => by
      obtain ⟨hbelow, hdir⟩ := hdirs y hy
      obtain ⟨a, ha, -⟩ := Tree.isDirectory_iff.1 hdir
      exact ⟨hbelow, a, ha⟩
    have hpow := Nat.le_self_pow (n := pathLimit) (by decide) (s.disk.nodes.length + 1)
    exact Nat.le_trans hbound (Nat.le_trans (Nat.le_succ _) (Nat.le_succ_of_le hpow))

def Sighted (t : Mount Run) (d : Disk) (x : List String) (q : Path) (kind : EntryKind) : Prop :=
  ∃ z, q = .ofNames (x ++ z) ∧ (∀ m ∈ z, EntryName m) ∧ seen (t.localPath q) d = .ok (some kind)

omit h in
theorem sighted_child (hd : w.disk.Rooted) {q : Path} {names : List String} {n : String}
    {kind : EntryKind} (hq : t.Sighted w.disk x q .directory)
    (hnames : outcome ((t.tree : Tree Run).childNames q) w = (.ok names, w)) (hn : n ∈ names)
    (hkind : outcome (t.kind (q.child n)) w = (.ok (some kind), w)) :
    t.Sighted w.disk x (q.child n) kind := by
  obtain ⟨z, rfl, hz, -⟩ := hq
  have hname : EntryName n := by
    change outcome (naming _ (Disk.look _)) w = _ at hnames
    rw [outcome_look] at hnames
    cases hread : w.disk.readDirectory (t.localPath (.ofNames (x ++ z))) with
    | error e =>
      rw [hread] at hnames
      cases hnames
    | ok listed =>
      rw [hread] at hnames
      cases hnames
      obtain ⟨y, mode, -, rfl⟩ := readDirectory_ok.1 hread
      obtain ⟨a, ha⟩ := mem_namesIn.1 hn
      exact hd.layout.name y n a ha
  rw [Path.ofNames_child _ hname.name] at hkind ⊢
  rw [kind_seen] at hkind
  refine ⟨z ++ [n], by rw [List.append_assoc], fun m hm => ?_, congrArg Prod.fst hkind⟩
  rcases List.mem_append.1 hm with hm | hm
  · exact hz m hm
  · rwa [List.mem_singleton.1 hm]

/-- Where files are seen at links a delete succeeds. -/
theorem delete_succeeds (hfits : ∀ z a, w.disk.node? (base ++ z) = some a → t.Fits (x ++ z))
    (hway : (w.disk.emptied base).parent (t.localPath (.ofNames x)) =
      w.disk.parent (t.localPath (.ofNames x)))
    (hlinks : t.Links w.disk x base (· = .ok (some .file))) :
    (ending (((t.tree : Tree Run).frozen w).remove (.ofNames x) true) w).1 = .ok () := by
  obtain ⟨mode, hdir⟩ := h.directory
  have htop : hung w.disk base x x = some (.directory mode) := by
    have hbelow := hung_below w.disk base x []
    rwa [List.append_nil, List.append_nil, hdir] at hbelow
  rcases (links_fragile h hfits hway hlinks).remove_ending (Trimmed.refl h.rooted) htop rfl true
    (.inl rfl) with ⟨fault, ⟨y, -, -, hlook, -⟩, -⟩ | ⟨-, removed, left, s', -, -, -, hresult⟩
  · rw [Tree.Failures.none_look] at hlook
    cases hlook
  · rcases hresult with ⟨-, hend⟩ | ⟨failed, rest, cause, -, hfail, -⟩
    · rw [hend]
    · cases hfail

end Delete

def standing : Mount Run := { anchored "/mnt" with phase := .mounted }

def pinned : World :=
  .ofDisk {
    nodes := [([], .directory 0o755), (["mnt"], .directory 0o755), (["mnt", "f"], .file 0),
      (["mnt", "d"], .directory 0o755), (["mnt", "d", "l"], .link "../f")]
    bodies := [⟨[7], 0o644⟩]
    current := []
    capacity := 0 }

theorem pinned_below {z : List String} {a : Node}
    (ha : pinned.disk.node? (["mnt", "d"] ++ z) = some a) : z = [] ∨ z = ["l"] := by
  have hkeys : Table.keys pinned.disk.nodes =
      [[], ["mnt"], ["mnt", "f"], ["mnt", "d"], ["mnt", "d", "l"]] := rfl
  have hmem := mem_keys.2 ⟨a, ha⟩
  rw [hkeys] at hmem
  simpa using hmem

theorem pinned_rooted : pinned.disk.Rooted := by
  have hkeys : Table.keys pinned.disk.nodes =
      [[], [] ++ ["mnt"], ["mnt"] ++ ["f"], ["mnt"] ++ ["d"], ["mnt", "d"] ++ ["l"]] := rfl
  refine rooted_of_listed (by decide) ⟨_, rfl⟩ fun x n hmem => ?_
  rw [hkeys] at hmem
  simp only [List.mem_cons, List.not_mem_nil, or_false, List.append_eq_nil_iff, reduceCtorEq,
    and_false, false_or] at hmem
  rcases hmem with h | h | h | h <;> obtain ⟨rfl, hn⟩ := List.append_inj' h rfl <;>
    obtain rfl := List.singleton_inj.1 hn <;>
    exact ⟨⟨by decide, by simp, by decide⟩, _, rfl⟩

theorem standing_parent {d : Disk} {mode mode' : UInt32}
    (hroot : d.node? [] = some (.directory mode))
    (hmnt : d.node? ["mnt"] = some (.directory mode')) :
    d.parent "/mnt/d" = .ok (["mnt"], .name "d" true) :=
  parent_way.2 ⟨[], ["", "mnt", "d"], linkLimit, rfl, rfl, .still hroot (.inl rfl)
    (.down hroot ⟨by decide, by decide, by decide⟩ hmnt (.here hmnt))⟩

theorem pinned_fits {z : List String} (hz : z = [] ∨ z = ["l"]) : standing.Fits (["d"] ++ z) := by
  have hd : EntryName "d" := ⟨by decide, by simp, by decide⟩
  have hl : EntryName "l" := ⟨by decide, by simp, by decide⟩
  rcases hz with rfl | rfl
  · exact ⟨by simpa using hd, by decide⟩
  · exact ⟨by simpa using ⟨hd, hl⟩, by decide⟩

theorem pinned_lies : standing.Lies pinned.disk ["d"] ["mnt", "d"] where
  rooted := pinned_rooted
  named := by decide
  fits := pinned_fits (.inl rfl)
  path := ⟨["mnt"], "d", rfl, standing_parent rfl rfl⟩
  directory := ⟨_, rfl⟩

theorem pinned_link : pinned.disk.find "/mnt/d/l" = .ok (["mnt", "f"], .file 0) := by
  have hroot : pinned.disk.node? [] = some (.directory 0o755) := rfl
  have hmnt : pinned.disk.node? ["mnt"] = some (.directory 0o755) := rfl
  have hd : pinned.disk.node? ["mnt", "d"] = some (.directory 0o755) := rfl
  have hl : pinned.disk.node? ["mnt", "d", "l"] = some (.link "../f") := rfl
  have hf : pinned.disk.node? ["mnt", "f"] = some (.file 0) := rfl
  have hparts : parts "../f" = ["..", "f"] := rfl
  have hsize : ∀ n ∈ ["mnt", "d", "l", "f"], ¬ nameLimit < n.utf8ByteSize := by decide
  simp only [List.forall_mem_cons] at hsize
  have hwalk : pinned.disk.walk linkLimit [] ["", "mnt", "d", "l"] =
      .ok ⟨["mnt", "f"], some (.file 0)⟩ := by
    simp [walk, hroot, hmnt, hd, hl, hf, hparts, linkLimit, hsize]
  exact find_walked.2 ⟨[], rfl, hwalk⟩

/-- A recursive delete removes only what a path at or below its own ends at, and a link only where
it is seen there as a file; the bytes of all files stay. If no link below leads to a directory, it
removes nothing but what lies at or below its own place. It succeeds, the paths being short enough,
just if each link below leads to a file, and then all that lies there is gone. -/
theorem delete_links (t : Mount Run) {p : Path} {x : List String} {base : Place} {w : World}
    (hphase : t.phase = .mounted) (hp : t.logical p = .ok (.ofNames x)) (h : t.Lies w.disk x base) :
    ∃ result d', outcome (t.delete p true) w = (result, { w with disk := d' }) ∧
      Trimmed (t.Named w.disk x) w.disk d' ∧
      (t.Links w.disk x base (· ≠ .ok (some .directory)) →
        ∀ y, ¬ base <+: y → d'.node? y = w.disk.node? y) ∧
      ((∀ z a, w.disk.node? (base ++ z) = some a → t.Fits (x ++ z)) →
        (result = .ok () → t.Links w.disk x base (· = .ok (some .file)) ∧
          ∀ y, d'.node? y = if base <+: y then none else w.disk.node? y) ∧
        ((w.disk.emptied base).parent (t.localPath (.ofNames x)) =
            w.disk.parent (t.localPath (.ofNames x)) →
          t.Links w.disk x base (· = .ok (some .file)) → result = .ok ())) := by
  have htop : outcome ((t.tree : Tree Run).kind (.ofNames x)) w = (.ok (some .directory), w) := by
    change outcome (t.kind (.ofNames x)) w = _
    rw [kind_seen, seen_directory h.onward]
  have hsighted : t.Sighted w.disk x (.ofNames x) .directory :=
    ⟨[], by rw [List.append_nil], by simp, seen_directory h.onward⟩
  obtain ⟨hfrozen, hlooks⟩ := Tree.remove_looks (tree_quiet t w)
    (fun q names n k hq hnames hn hk => sighted_child h.rooted hq hnames hn hk) htop hsighted
  have hdelete : outcome (t.delete p true) w =
      outcome ((t.tree : Tree Run).remove (.ofNames x) true) w :=
    outcome_bind_ok (enter_seen hphase hp w) _
  rw [hdelete]
  have hclean : (∀ z a, w.disk.node? (base ++ z) = some a → t.Fits (x ++ z)) →
      (w.disk.emptied base).parent (t.localPath (.ofNames x)) =
        w.disk.parent (t.localPath (.ofNames x)) →
      t.Links w.disk x base (· = .ok (some .file)) →
      (outcome ((t.tree : Tree Run).remove (.ofNames x) true) w).1 = .ok () := by
    intro hfits hway hlinks
    rw [← delete_succeeds h hfits hway hlinks, hfrozen]
    rfl
  obtain ⟨fault, hend⟩ | ⟨all, hend, htopFound, hall⟩ := hlooks
  · change outcome _ w = _ at hend
    rw [hend] at hclean ⊢
    exact ⟨_, w.disk, rfl, .refl h.rooted, fun _ _ _ => rfl,
      fun hfits => ⟨fun hok => (nomatch hok), hclean hfits⟩⟩
  · obtain ⟨result, d', hremoved, hd', -, hgone⟩ := removeEach_trims (d := w.disk) (w := w)
      (t.Named w.disk x) (.ofNames x) (fun e he y n bare hpath => by
        obtain ⟨z, hz, hnames, hseen⟩ := hall e he
        rw [hz] at hpath hseen
        exact ⟨z, y, n, bare, hnames, rfl, hpath, hseen⟩) (.refl h.rooted)
    change outcome _ w = outcome _ w at hend
    rw [hend, hremoved] at hclean ⊢
    have hinside : t.Links w.disk x base (· ≠ .ok (some .directory)) →
        ∀ y, ¬ base <+: y → d'.node? y = w.disk.node? y :=
      fun hlinks y hy => hd'.outside fun a _ hnamed => hy (h.named_inside hlinks hnamed)
    refine ⟨result, d', rfl, hd', hinside, fun hfits => ⟨fun hok => ?_, hclean hfits⟩⟩
    have hnone : ∀ y, base <+: y → d'.node? y = none := by
      obtain ⟨y, n, bare, hpath, hnone⟩ := hgone hok _ htopFound
      obtain ⟨y', n', rfl, hpath'⟩ := h.path
      cases hpath.symm.trans hpath'
      exact fun y hy => hd'.rooted.layout.nothing_within hnone hy
    have hfiles := h.files_linked hfits fun z target hlink =>
      hd'.gone _ _ hlink (hnone _ (List.prefix_append _ _))
    refine ⟨hfiles, fun y => ?_⟩
    split_ifs with hy
    · exact hnone y hy
    · refine hinside (fun z target hlink hdir => ?_) y hy
      rw [hfiles z target hlink] at hdir
      cases hdir

/-- The directory is gone with the link, and the file is still there. -/
theorem pinned_deleted : ∃ d',
    outcome (standing.delete (.ofNames ["d"]) true) pinned = (.ok (), { pinned with disk := d' }) ∧
    d'.node? ["mnt", "d"] = none ∧ d'.node? ["mnt", "d", "l"] = none ∧
    d'.node? ["mnt", "f"] = some (.file 0) ∧ (d'.body 0).data = [7] := by
  obtain ⟨result, d', hend, htrimmed, -, hwhole⟩ :=
    delete_links standing (p := .ofNames ["d"]) rfl rfl pinned_lies
  obtain ⟨hgone, hok⟩ := hwhole fun z a ha => pinned_fits (pinned_below ha)
  have hway := (standing_parent (d := pinned.disk.emptied ["mnt", "d"]) rfl rfl).trans
    (standing_parent (d := pinned.disk) rfl rfl).symm
  obtain rfl := hok hway fun z target hz => by
    rcases pinned_below hz with rfl | rfl
    · cases hz
    · exact seen_file pinned_link
  obtain ⟨-, hnodes⟩ := hgone rfl
  refine ⟨d', hend, hnodes _, hnodes _, hnodes _, ?_⟩
  rw [htrimmed.same]
  rfl

/-- A directory with a link to a directory outside of the mounted one, in which a file lies. -/
def borrowed : World :=
  .ofDisk {
    nodes := [([], .directory 0o755), (["mnt"], .directory 0o755), (["mnt", "d"], .directory 0o755),
      (["mnt", "d", "l"], .link "/out"), (["out"], .directory 0o755), (["out", "f"], .file 0)]
    bodies := [⟨[7], 0o644⟩]
    current := []
    capacity := 0 }

theorem borrowed_walks : borrowed.disk.walk linkLimit [] ["", "mnt", "d"] =
      .ok ⟨["mnt", "d"], some (.directory 0o755)⟩ ∧
    borrowed.disk.walk linkLimit [] ["", "mnt", "d", "l"] =
      .ok ⟨["out"], some (.directory 0o755)⟩ ∧
    borrowed.disk.walk linkLimit [] ["", "mnt", "d", "l", "f"] =
      .ok ⟨["out", "f"], some (.file 0)⟩ := by
  have hroot : borrowed.disk.node? [] = some (.directory 0o755) := rfl
  have hmnt : borrowed.disk.node? ["mnt"] = some (.directory 0o755) := rfl
  have hd : borrowed.disk.node? ["mnt", "d"] = some (.directory 0o755) := rfl
  have hl : borrowed.disk.node? ["mnt", "d", "l"] = some (.link "/out") := rfl
  have hout : borrowed.disk.node? ["out"] = some (.directory 0o755) := rfl
  have hf : borrowed.disk.node? ["out", "f"] = some (.file 0) := rfl
  have hparts : parts "/out" = ["", "out"] := rfl
  have hsize : ∀ n ∈ ["mnt", "d", "l", "out", "f"], ¬ nameLimit < n.utf8ByteSize := by decide
  simp only [List.forall_mem_cons] at hsize
  refine ⟨?_, ?_, ?_⟩ <;> simp [walk, hroot, hmnt, hd, hl, hout, hf, hparts, linkLimit, hsize]

def lent : Disk := { borrowed.disk with nodes := Table.erase ["out", "f"] borrowed.disk.nodes }

theorem borrowed_finds : borrowed.disk.find "/mnt/d" = .ok (["mnt", "d"], .directory 0o755) ∧
    borrowed.disk.find "/mnt/d/l" = .ok (["out"], .directory 0o755) ∧
    borrowed.disk.find "/mnt/d/l/f" = .ok (["out", "f"], .file 0) := by
  obtain ⟨hd, hl, hf⟩ := borrowed_walks
  exact ⟨find_walked.2 ⟨[], rfl, hd⟩, find_walked.2 ⟨[], rfl, hl⟩, find_walked.2 ⟨[], rfl, hf⟩⟩

theorem borrowed_found (n : Nat) : outcome ((standing.tree : Tree Run).walk (n + 3)
    ⟨[(.ofNames ["d"], .directory)], [(.ofNames ["d"], ["l"])]⟩) borrowed =
      (.ok [(.ofNames ["d", "l", "f"], .file), (.ofNames ["d", "l"], .directory),
        (.ofNames ["d"], .directory)], borrowed) := by
  obtain ⟨hd, hl, hf⟩ := borrowed_finds
  have hkindl : outcome ((standing.tree : Tree Run).kind (.ofNames ["d", "l"])) borrowed =
      (.ok (some .directory), borrowed) :=
    (kind_seen _ _).trans (congrArg (·, borrowed) (seen_directory (find_onward hl)))
  have hkindf : outcome ((standing.tree : Tree Run).kind (.ofNames ["d", "l", "f"])) borrowed =
      (.ok (some .file), borrowed) :=
    (kind_seen _ _).trans (congrArg (·, borrowed) (seen_file hf))
  have hnames : outcome ((standing.tree : Tree Run).childNames (.ofNames ["d", "l"])) borrowed =
      (.ok ["f"], borrowed) := by
    have hfind : borrowed.disk.find (standing.localPath (.ofNames ["d", "l"])) =
        .ok (["out"], .directory 0o755) := hl
    have hsorted : borrowed.disk.namesIn ["out"] = ["f"] := List.mergeSort_singleton _
    rw [childNames_found hfind, hsorted]
  have hfirst : outcome ((standing.tree : Tree Run).visit (.ofNames ["d"]) ["l"]
      ⟨[(.ofNames ["d"], .directory)], []⟩) borrowed =
      (.ok ⟨[(.ofNames ["d", "l"], .directory), (.ofNames ["d"], .directory)],
        [(.ofNames ["d", "l"], ["f"])]⟩, borrowed) := by
    rw [Tree.visit]
    change outcome ((standing.tree : Tree Run).kind (.ofNames ["d", "l"]) >>= _) borrowed = _
    rw [outcome_bind_ok hkindl]
    change outcome ((standing.tree : Tree Run).childNames (.ofNames ["d", "l"]) >>= _) borrowed = _
    rw [outcome_bind_ok hnames]
    rfl
  have hsecond : outcome ((standing.tree : Tree Run).visit (.ofNames ["d", "l"]) ["f"]
      ⟨[(.ofNames ["d", "l"], .directory), (.ofNames ["d"], .directory)], []⟩) borrowed =
      (.ok ⟨[(.ofNames ["d", "l", "f"], .file), (.ofNames ["d", "l"], .directory),
        (.ofNames ["d"], .directory)], []⟩, borrowed) := by
    rw [Tree.visit]
    change outcome ((standing.tree : Tree Run).kind (.ofNames ["d", "l", "f"]) >>= _) borrowed = _
    rw [outcome_bind_ok hkindf]
    rfl
  exact (Tree.walk_step hfirst _).trans (Tree.walk_step hsecond _)

theorem borrowed_removals :
    removal .file (standing.localPath (.ofNames ["d", "l", "f"])) borrowed.disk = .ok lent ∧
    removal .directory (standing.localPath (.ofNames ["d", "l"])) lent = .error notDirectory := by
  have hroot : lent.node? [] = some (.directory 0o755) := rfl
  have hmnt : lent.node? ["mnt"] = some (.directory 0o755) := rfl
  have hd : lent.node? ["mnt", "d"] = some (.directory 0o755) := rfl
  have hfile : borrowed.disk.parent "/mnt/d/l/f" = .ok (["out"], .name "f" true) := by
    obtain ⟨left, hway⟩ := walk_way borrowed_walks.2.1
    exact parent_way.2 ⟨[], ["", "mnt", "d", "l", "f"], left, rfl, rfl, hway⟩
  have hlink : lent.parent "/mnt/d/l" = .ok (["mnt", "d"], .name "l" true) :=
    parent_way.2 ⟨[], ["", "mnt", "d", "l"], linkLimit, rfl, rfl, .still hroot (.inl rfl)
      (.down hroot ⟨by decide, by decide, by decide⟩ hmnt
        (.down hmnt ⟨by decide, by decide, by decide⟩ hd (.here hd)))⟩
  constructor
  · exact removeFile_found hfile ⟨by decide, by simp, by decide⟩ rfl
  · change removeDirectory "/mnt/d/l" lent = _
    unfold removeDirectory
    rw [hlink]
    rfl

/-- A file that does not lie below is gone, and neither the link nor its directory is. -/
theorem borrowed_emptied :
    outcome (standing.delete (.ofNames ["d"]) true) borrowed =
      (.error (.partialDelete "/d" "/d/l" ["/d/l", "/d"] (.ofIo notDirectory "/mnt/d/l")),
        { borrowed with disk := lent }) ∧
    borrowed.disk.node? ["out", "f"] = some (.file 0) ∧ lent.node? ["out", "f"] = none := by
  obtain ⟨hd, -, -⟩ := borrowed_finds
  obtain ⟨hfile, hlink⟩ := borrowed_removals
  have hkind : outcome ((standing.tree : Tree Run).kind (.ofNames ["d"])) borrowed =
      (.ok (some .directory), borrowed) :=
    (kind_seen _ _).trans (congrArg (·, borrowed) (seen_directory (find_onward hd)))
  have hnames : outcome ((standing.tree : Tree Run).childNames (.ofNames ["d"])) borrowed =
      (.ok ["l"], borrowed) := by
    have hfind : borrowed.disk.find (standing.localPath (.ofNames ["d"])) =
        .ok (["mnt", "d"], .directory 0o755) := hd
    have hsorted : borrowed.disk.namesIn ["mnt", "d"] = ["l"] := List.mergeSort_singleton _
    rw [childNames_found hfind, hsorted]
  have hfirst : outcome (attempt ((standing.tree : Tree Run).removeEntry
      (.ofNames ["d", "l", "f"]) .file)) borrowed =
      (.ok (.ok ()), { borrowed with disk := lent }) := by
    rw [outcome_attempt, removeEntry_update, outcome_update_ok hfile]
  have hsecond : outcome (attempt ((standing.tree : Tree Run).removeEntry (.ofNames ["d", "l"])
      .directory)) { borrowed with disk := lent } =
      (.ok (.error (.ofIo notDirectory "/mnt/d/l")), { borrowed with disk := lent }) := by
    rw [outcome_attempt, removeEntry_update, outcome_update_error hlink]
    rfl
  have hdelete : outcome (standing.delete (.ofNames ["d"]) true) borrowed =
      outcome ((standing.tree : Tree Run).remove (.ofNames ["d"]) true) borrowed :=
    outcome_bind_ok (enter_seen rfl rfl borrowed) _
  obtain ⟨n, hreach⟩ := tree_reach standing borrowed
  have hwalks := Tree.remove_walks hkind hnames (congrArg Prod.snd hreach)
  rw [hreach] at hwalks
  refine ⟨hdelete.trans (hwalks.trans ((outcome_bind_ok (borrowed_found n) _).trans ?_)), rfl, rfl⟩
  rw [Tree.removeEach, outcome_bind_ok hfirst, Tree.removeEach]
  exact outcome_bind_ok hsecond _

end VolumeFS.Mount
