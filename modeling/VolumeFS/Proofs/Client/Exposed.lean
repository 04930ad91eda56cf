import VolumeFS.Proofs.Client.Tree
import VolumeFS.Proofs.Stream.Exposed

/-!
# A client of a volume whose calls fail

Copying to a place and deleting a place change nothing outside of it, whenever
they are stopped. Until a call fails they do what they do without failures.
-/

set_option autoImplicit false

namespace VolumeFS

open Volume Exposed

namespace Volume

structure ChangedWithin (before : Volume) (top : List String) (v : Volume) : Prop where
  wellFormed : v.WellFormed
  outside : ∀ y, ¬ top <+: y → v.find? ⟨y⟩ = before.find? ⟨y⟩

variable {before v v' : Volume} {top z : List String}

theorem ChangedWithin.refl (h : before.WellFormed) (top : List String) :
    ChangedWithin before top before :=
  ⟨h, fun _ _ => rfl⟩

theorem ChangedWithin.put (h : ChangedWithin before top v) (hz : top <+: z) {e : Entry}
    (hv : (v.put ⟨z⟩ e).WellFormed) : ChangedWithin before top (v.put ⟨z⟩ e) := by
  refine ⟨hv, fun y hy => ?_⟩
  rw [find?_put_of_ne ?_, h.outside y hy]
  rintro hyz
  cases hyz
  exact hy hz

theorem ChangedWithin.add (h : ChangedWithin before top v) (hz : top <+: z)
    (hnames : ∀ n ∈ z, IsName n) {content : Content} {mode : UInt32} (hmode : mode ≤ 0o7777)
    (hlen : content.length ≤ longest) (ha : Volume.add ⟨z⟩ content mode v = .ok v') :
    ChangedWithin before top v' := by
  have hv' := add_wellFormed h.wellFormed hnames hmode hlen ha
  obtain ⟨p, d, -, -, -, -, rfl⟩ := add_ok ha
  exact h.put hz hv'

theorem ChangedWithin.chmod (h : ChangedWithin before top v) (hz : top <+: z) {mode : UInt32}
    (hc : Volume.chmod ⟨z⟩ mode v = .ok v') : ChangedWithin before top v' := by
  have hv' := chmod_wellFormed h.wellFormed hc
  obtain ⟨e, -, rfl⟩ := alter_ok hc
  exact h.put hz hv'

theorem ChangedWithin.writeAt (h : ChangedWithin before top v) (hz : top <+: z) {offset : Nat}
    {bytes : List Byte} (hw : Volume.writeAt ⟨z⟩ offset bytes v = .ok v') :
    ChangedWithin before top v' := by
  have hv' := writeAt_wellFormed h.wellFormed hw
  obtain ⟨data, mode, uid, gid, -, -, rfl⟩ := writeAt_ok hw
  exact h.put hz hv'

theorem ChangedWithin.delete (h : ChangedWithin before top v) (hz : top <+: z)
    (hd : Volume.delete ⟨z⟩ v = .ok v') : ChangedWithin before top v' := by
  refine ⟨delete_wellFormed h.wellFormed hd, fun y hy => ?_⟩
  obtain ⟨-, -, hentries, -⟩ := delete_ok hd
  rw [← h.outside y hy, find?, find?, hentries, Table.lookup_erase_of_ne]
  rintro hyz
  cases hyz
  exact hy hz

end Volume

def Path.Inside (top : List String) (p : Path) : Prop :=
  ∃ z, top <+: z ∧ (∀ n ∈ z, IsName n) ∧ p = .ofNames z

theorem Path.Inside.child {top : List String} {p : Path} (h : p.Inside top) {n : String}
    (hn : IsName n) : (p.child n).Inside top := by
  obtain ⟨z, hz, hnames, rfl⟩ := h
  refine ⟨z ++ [n], hz.trans (List.prefix_append _ _), ?_, ofNames_child z hn⟩
  simpa [or_imp, forall_and] using ⟨hnames, hn⟩

theorem Path.Inside.key {top : List String} {p : Path} (h : p.Inside top) :
    ∃ z, top <+: z ∧ (∀ n ∈ z, IsName n) ∧ Client.key p = ⟨z⟩ := by
  obtain ⟨z, hz, hnames, rfl⟩ := h
  exact ⟨z, hz, hnames, ofNames_key hnames⟩

namespace Client

def unexposed (c : Client ExposedRun) : Client Run :=
  ⟨c.volumeName, c.authority, c.bufferSize, c.resolver, attributeOracle c.authority, c.home⟩

section Looking

variable {I : Volume → Prop}

/-- What is at a key is asked for and has to be something. -/
theorem tracks_requireStat (k : Key) (missing : Fault) :
    Tracks I
      (do match ← VolumeAccess.stat k with
          | some st => return st
          | none => throw missing : ExceptT Fault ExposedRun Stat)
      (do match ← VolumeAccess.stat k with
          | some st => return st
          | none => throw missing)
      (fun _ => True) := by
  refine tracks_bind (P := fun _ => True) (tracks_look fun _ _ _ _ => trivial) fun st? _ => ?_
  cases st? with
  | some st => exact tracks_pure trivial
  | none => exact tracks_throw _

theorem tracks_kind (p : Path) :
    Tracks I ((tree : Tree ExposedRun).kind p) ((tree : Tree Run).kind p) (fun _ => True) :=
  tracks_bind (P := fun _ => True) (tracks_look fun _ _ _ _ => trivial)
    fun _ _ => tracks_pure trivial

theorem tracks_placeIn (source destination : Path) :
    Tracks I ((tree : Tree ExposedRun).placeIn source destination)
      ((tree : Tree Run).placeIn source destination) (fun _ => True) := by
  unfold Tree.placeIn
  refine tracks_bind (tracks_kind destination) fun kind? _ => ?_
  match kind? with
  | some .directory =>
    cases source.name? with
    | some name => exact tracks_pure trivial
    | none => exact tracks_throw _
  | some .file => exact tracks_pure trivial
  | none => exact tracks_pure trivial

theorem tracks_renameTarget (source destination : Path) :
    Tracks I ((tree : Tree ExposedRun).renameTarget source destination)
      ((tree : Tree Run).renameTarget source destination) (fun _ => True) := by
  unfold Tree.renameTarget
  refine tracks_bind (tracks_placeIn source destination) fun target _ => ?_
  refine tracks_ite (tracks_pure trivial) (tracks_bind (tracks_kind target) fun kind? _ => ?_)
  cases kind? with
  | some kind => exact tracks_throw _
  | none => exact tracks_pure trivial

end Looking

section Changing

variable {before : Volume} {top : List String}

theorem tracks_list (k : Key) : Tracks (ChangedWithin before top)
    (VolumeAccess.list k : ExceptT Fault ExposedRun _) (VolumeAccess.list k)
    (fun names => ∀ n ∈ names, IsName n) :=
  tracks_look fun _ _ hv hl => hv.wellFormed.list_names hl

theorem tracks_chmod {z : List String} (hz : top <+: z) (mode : UInt32) :
    Tracks (ChangedWithin before top)
      (VolumeAccess.chmod ⟨z⟩ mode : ExceptT Fault ExposedRun _) (VolumeAccess.chmod ⟨z⟩ mode)
      (fun _ => True) :=
  tracks_update fun _ _ hv hc => hv.chmod hz hc

theorem streamTracks_read (n : Nat) : StreamTracks (ChangedWithin before top) (fun _ => True)
    (Readable.read n : StreamT Reader ExposedRun _) (Readable.read n) :=
  streamTracks_call fun _ _ _ hw => ⟨hw, trivial⟩

theorem streamTracks_write {z : List String} (hz : top <+: z) (bytes : List Byte) :
    StreamTracks (ChangedWithin before top) (fun writer => writer.key = ⟨z⟩)
      (Writable.write bytes : StreamT Writer ExposedRun _) (Writable.write bytes) := by
  refine streamTracks_call fun writer w hkey hw => ?_
  rw [acted_write, hkey]
  cases hv : Volume.writeAt ⟨z⟩ writer.position.toNat bytes w.volume with
  | error e => exact ⟨hw, hkey⟩
  | ok v => exact ⟨hw.writeAt hz hv, rfl⟩

variable (c : Client ExposedRun)

theorem tracks_copyBytes (source : Key) {z : List String} (hz : top <+: z) :
    Tracks (ChangedWithin before top) (c.copyBytes source ⟨z⟩) (c.unexposed.copyBytes source ⟨z⟩)
      (fun _ => True) := by
  have hopen : Tracks (ChangedWithin before top)
      (VolumeAccess.openWriter ⟨z⟩ : ExceptT Fault ExposedRun _) (VolumeAccess.openWriter ⟨z⟩)
      (fun writer => writer.key = ⟨z⟩) := by
    refine tracks_look fun v writer _ hv => ?_
    cases hr : v.readable ⟨z⟩ with
    | error fault =>
      rw [hr] at hv
      cases hv
    | ok data =>
      rw [hr] at hv
      cases hv
      rfl
  have hflush : StreamTracks (ChangedWithin before top) (fun writer => writer.key = ⟨z⟩)
      (Writable.flush : StreamT Writer ExposedRun _) Writable.flush :=
    streamTracks_call fun _ _ hkey hw => ⟨hw, hkey⟩
  have hshutdown : StreamTracks (ChangedWithin before top) (fun writer => writer.key = ⟨z⟩)
      (Writable.shutdown : StreamT Writer ExposedRun _) Writable.shutdown :=
    streamTracks_call fun _ _ hkey hw => ⟨hw, hkey⟩
  unfold copyBytes
  refine tracks_bind (P := fun _ => True) (tracks_look fun _ _ _ _ => trivial) fun reader _ => ?_
  refine tracks_bind hopen fun writer hkey => ?_
  refine tracks_bind (tracks_copy (streamTracks_buffered streamTracks_read)
    (streamTracks_write hz) hflush _ trivial hkey) fun done hkey => ?_
  exact tracks_bind (tracks_orFault hshutdown hkey) fun _ _ => tracks_pure trivial

theorem tracks_copyEntry (source : Path) {target : Path} (ht : target.Inside top) :
    Tracks (ChangedWithin before top) (c.copyEntry source target)
      (c.unexposed.copyEntry source target)
      (fun below => ∀ pair ∈ below, pair.2.Inside top) := by
  obtain ⟨z, hz, hnames, hkey⟩ := ht.key
  have hadd : ∀ content mode, mode ≤ 0o7777 → content.length ≤ longest →
      Tracks (ChangedWithin before top) (call (update (add ⟨z⟩ content mode)))
        (update (add ⟨z⟩ content mode)) (fun _ => True) :=
    fun content mode hmode hlen => tracks_update fun _ _ hv ha => hv.add hz hnames hmode hlen ha
  unfold copyEntry
  rw [hkey]
  refine tracks_bind (tracks_requireStat _ _) fun st _ => ?_
  have hpermit : ∀ below : List (Path × Path), (∀ pair ∈ below, pair.2.Inside top) →
      Tracks (ChangedWithin before top)
        (do VolumeAccess.chmod ⟨z⟩ st.mode; return below : ExceptT Fault ExposedRun _)
        (do VolumeAccess.chmod ⟨z⟩ st.mode; return below)
        (fun below => ∀ pair ∈ below, pair.2.Inside top) :=
    fun below hbelow => tracks_bind (tracks_chmod hz st.mode) fun _ _ => tracks_pure hbelow
  cases st.isDirectory with
  | true =>
    refine tracks_bind (hadd .directory 0o755 (by decide) (Nat.zero_le _)) fun _ _ => ?_
    refine tracks_bind (tracks_list _) fun names hlisted => ?_
    refine hpermit _ fun pair hpair => ?_
    obtain ⟨n, hn, rfl⟩ := List.mem_map.1 hpair
    exact ht.child (hlisted n hn)
  | false =>
    refine tracks_bind (hadd (.file []) 0o644 (by decide) (Nat.zero_le _)) fun _ _ => ?_
    refine tracks_bind (c.tracks_copyBytes _ hz) fun _ _ => ?_
    exact hpermit [] (by simp)

theorem tracks_copyAll (fuel : Nat) {pending : List (Path × Path)}
    (hpending : ∀ pair ∈ pending, pair.2.Inside top) :
    Tracks (ChangedWithin before top) (c.copyAll fuel pending) (c.unexposed.copyAll fuel pending)
      (fun _ => True) := by
  induction fuel generalizing pending with
  | zero =>
    cases pending with
    | nil =>
      rw [copyAll, copyAll]
      exact tracks_pure trivial
    | cons pair pending => exact tracks_throw _
  | succ fuel ih =>
    cases pending with
    | nil =>
      rw [copyAll, copyAll]
      exact tracks_pure trivial
    | cons pair pending =>
      obtain ⟨source, target⟩ := pair
      refine tracks_bind (c.tracks_copyEntry source (hpending (source, target) (by simp)))
        fun below hbelow => ih fun pair hpair => ?_
      rcases List.mem_append.1 hpair with hpair | hpair
      · exact hbelow pair (List.mem_reverse.1 hpair)
      · exact hpending pair (by simp [hpair])

theorem tracks_copyTree (source : Path) {target : Path} (ht : target.Inside top) :
    Tracks (ChangedWithin before top) (c.copyTree source target)
      (c.unexposed.copyTree source target) (fun _ => True) := by
  unfold copyTree
  refine tracks_bind tracks_reach fun _ _ => c.tracks_copyAll _ ?_
  simpa using ht

/-- What a walk has met and what it has still to look at lies inside of a place. -/
def WalkInside (top : List String) (w : Tree.Walk) : Prop :=
  (∀ entry ∈ w.found, entry.1.Inside top) ∧
    ∀ entry ∈ w.pending, entry.1.Inside top ∧ ∀ n ∈ entry.2, IsName n

theorem tracks_visit {directory : Path} (hd : directory.Inside top) {names : List String}
    (hnames : ∀ n ∈ names, IsName n) {w : Tree.Walk} (hw : WalkInside top w) :
    Tracks (ChangedWithin before top) ((tree : Tree ExposedRun).visit directory names w)
      ((tree : Tree Run).visit directory names w) (WalkInside top) := by
  induction names generalizing w with
  | nil => exact tracks_pure hw
  | cons n names ih =>
    have hchild := hd.child (hnames n (by simp))
    have hrest : ∀ m ∈ names, IsName m := fun m hm => hnames m (by simp [hm])
    obtain ⟨hfound, hpending⟩ := hw
    refine tracks_bind (tracks_kind _) fun kind? _ => ?_
    match kind? with
    | some .directory =>
      refine tracks_bind (tracks_list _) fun below hbelow => ih hrest ⟨?_, ?_⟩
      · simpa using ⟨hchild, fun p kind hp => hfound (p, kind) hp⟩
      · simpa using ⟨⟨hchild, hbelow⟩, fun p ns hp => hpending (p, ns) hp⟩
    | some .file =>
      refine ih hrest ⟨?_, hpending⟩
      simpa using ⟨hchild, fun p kind hp => hfound (p, kind) hp⟩
    | none => exact ih hrest ⟨hfound, hpending⟩

theorem tracks_walk (fuel : Nat) {w : Tree.Walk} (hw : WalkInside top w) :
    Tracks (ChangedWithin before top) ((tree : Tree ExposedRun).walk fuel w)
      ((tree : Tree Run).walk fuel w) (fun found => ∀ entry ∈ found, entry.1.Inside top) := by
  induction fuel generalizing w with
  | zero => exact tracks_throw _
  | succ fuel ih =>
    obtain ⟨found, pending⟩ := w
    obtain ⟨hfound, hpending⟩ := hw
    cases pending with
    | nil => exact tracks_pure hfound
    | cons entry pending =>
      obtain ⟨directory, names⟩ := entry
      obtain ⟨hd, hnames⟩ := hpending (directory, names) (by simp)
      refine tracks_bind (tracks_visit hd hnames ⟨hfound, fun entry he => ?_⟩) fun w' hw' => ih hw'
      exact hpending entry (List.mem_cons_of_mem _ he)

theorem tracks_removeEntry {p : Path} (hp : p.Inside top) (kind : EntryKind) :
    Tracks (ChangedWithin before top) ((tree : Tree ExposedRun).removeEntry p kind)
      ((tree : Tree Run).removeEntry p kind) (fun _ => True) := by
  obtain ⟨z, hz, -, hkey⟩ := hp.key
  change Tracks _ (VolumeAccess.delete (key p)) (VolumeAccess.delete (key p)) _
  rw [hkey]
  exact tracks_update fun _ _ hv hd => hv.delete hz hd

theorem tracks_removeEach (p : Path) {found : List (Path × EntryKind)}
    (hfound : ∀ entry ∈ found, entry.1.Inside top) :
    Tracks (ChangedWithin before top) ((tree : Tree ExposedRun).removeEach p found)
      ((tree : Tree Run).removeEach p found) (fun _ => True) := by
  induction found with
  | nil => exact tracks_pure trivial
  | cons entry found ih =>
    obtain ⟨entry, kind⟩ := entry
    refine tracks_attempt (tracks_removeEntry (hfound (entry, kind) (by simp)) kind)
      (fun _ _ => ih fun e he => hfound e (by simp [he])) (fun cause => ⟨rfl, rfl⟩)
      fun _ _ => .stopped

theorem tracks_remove {p : Path} (hp : p.Inside top) (recursive : Bool) :
    Tracks (ChangedWithin before top) ((tree : Tree ExposedRun).remove p recursive)
      ((tree : Tree Run).remove p recursive) (fun _ => True) := by
  unfold Tree.remove
  refine tracks_bind (tracks_kind p) fun kind? _ => ?_
  match kind? with
  | none => exact tracks_throw _
  | some .file => exact tracks_removeEntry hp .file
  | some .directory =>
    refine tracks_bind (tracks_list _) fun names hnames => ?_
    refine tracks_ite (tracks_throw _) ?_
    refine tracks_bind tracks_reach fun bound _ => ?_
    refine tracks_bind (tracks_walk _ ⟨?_, ?_⟩) fun found hfound => tracks_removeEach p hfound
    · simpa using hp
    · simpa using ⟨hp, hnames⟩

end Changing

end Client

end VolumeFS
