import VolumeFS.Proofs.Client.Tree
import VolumeFS.Proofs.Volume.Streams

/-!
# Copying trees of a volume

Where the place is free and its parent a directory, an entry is copied with its
bytes and its mode, and nothing else on the volume changes. Copying a tree
outside of itself therefore copies each of its entries once.
-/

set_option autoImplicit false

namespace VolumeFS

open Volume

namespace Volume

theorem put_found {v : Volume} {k : Key} {e : Entry} (h : v.find? k = some e) : v.put k e = v := by
  unfold put
  rw [Table.set_lookup h]

/-- A mode that has no bits but those of permissions is not changed by leaving out the others. -/
theorem mode_kept {mode : UInt32} (h : mode ≤ 0o7777) : mode &&& 0o7777 = mode := by
  rw [← UInt32.toNat_inj, UInt32.toNat_and]
  have hbits : (0o7777 : UInt32).toNat = 2 ^ 12 - 1 := rfl
  rw [UInt32.le_iff_toNat_le, hbits] at h
  rw [hbits, Nat.and_two_pow_sub_one_eq_mod]
  exact Nat.mod_eq_of_lt (by omega)

end Volume

namespace Client

variable (c : Client Run) {w : World}

theorem copyBytes_ok {source target : Key} {bytes : List Byte} {mode uid gid : UInt32}
    (hs : w.volume.readable source = .ok bytes)
    (ht : w.volume.find? target = some ⟨.file [], mode, uid, gid⟩)
    (hlen : bytes.length ≤ longest) :
    ∃ w', outcome (c.copyBytes source target) w = (.ok (), w') ∧
      Writer.Wrote w target mode uid gid w' bytes := by
  have hreader := outcome_openReader hs
  have hwriter := outcome_openWriter (readable_file ht rfl)
  have hfeed : Reader.Left ⟨.ofBytes bytes⟩ w bytes := ⟨Nat.zero_le _, hlen, rfl⟩
  have hat : Writer.AtEnd w target mode uid gid ⟨target, 0⟩ w [] :=
    ⟨rfl, rfl, (put_found ht).symm, rfl⟩
  obtain ⟨r, s, w₁, hcopy, hs₁⟩ := (Writer.fills w target mode uid gid).copy
    (ReadBuffer.feeds Reader.feeds) (fun h => h) (bytes.length + 2) (by omega)
    (ReadBuffer.behind_fresh hfeed c.bufferSize) hat (by simpa using hlen)
  rw [List.nil_append] at hs₁
  obtain ⟨s₂, w₂, hshut, hw₂⟩ := (Writer.fills w target mode uid gid).shutdown hlen hs₁
  refine ⟨w₂, ?_, hw₂⟩
  unfold copyBytes
  rw [outcome_bind_ok hreader, outcome_bind_ok hwriter]
  dsimp only [Cursor.ofBytes] at hcopy ⊢
  rw [outcome_bind_ok hcopy, outcome_bind_ok (outcome_orFault_ok hshut)]
  rfl

theorem chmod_found {k : Key} {e : Entry} (h : w.volume.find? k = some e) (mode : UInt32) :
    outcome (VolumeAccess.chmod k mode) w =
      (.ok (), { w with volume := w.volume.put k { e with mode := mode &&& 0o7777 } }) :=
  outcome_update_ok (alter_found h _)

/-- A new entry gets its mode. -/
theorem chmod_new {v : Volume} {k : Key} {content : Content} {old mode : UInt32}
    (hv : w.volume = v.put k (v.newEntry content old)) (hmode : mode ≤ 0o7777) :
    outcome (VolumeAccess.chmod k mode) w =
      (.ok (), { w with volume := v.put k (v.newEntry content mode) }) := by
  have hfind : w.volume.find? k = some (v.newEntry content old) := by
    rw [hv, find?_put_self]
  rw [chmod_found hfind, hv, put_put, mode_kept hmode]
  rfl

def pairsBelow (x t : List String) (names : List String) : List (Path × Path) :=
  names.map fun n => (.ofNames (x ++ [n]), .ofNames (t ++ [n]))

theorem pairsBelow_children {names : List String} (x t : List String)
    (hn : ∀ n ∈ names, IsName n) : pairsBelow x t names =
      names.map fun n => ((Path.ofNames x).child n, (Path.ofNames t).child n) := by
  refine List.map_congr_left (fun n hmem => ?_)
  rw [Path.ofNames_child x (hn n hmem), Path.ofNames_child t (hn n hmem)]

section Entry

variable (hw : w.volume.WellFormed) {x t : List String} {n : String} {e d : Entry}
  (he : w.volume.find? ⟨x⟩ = some e) (hn : IsName n)
  (hfree : w.volume.find? ⟨t ++ [n]⟩ = none) (hd : w.volume.find? ⟨t⟩ = some d)
  (hdir : d.content = .directory)

include he hfree in
theorem find?_beside (e' : Entry) : (w.volume.put ⟨t ++ [n]⟩ e').find? ⟨x⟩ = some e := by
  rw [find?_put_of_ne ?_, he]
  intro hx
  rw [hx, hfree] at he
  cases he

include hw hn hd in
theorem child_key : key (.ofNames (t ++ [n])) = ⟨t ++ [n]⟩ := by
  refine Path.ofNames_key (fun m hm => ?_)
  rcases List.mem_append.1 hm with hm | hm
  · exact hw.normal t hd m hm
  · rwa [List.mem_singleton.1 hm]

include hw he hn hfree hd hdir

theorem copied_wellFormed :
    (w.volume.put ⟨t ++ [n]⟩ (w.volume.newEntry e.content e.mode)).WellFormed :=
  hw.put_new hn hd hdir hfree (hw.mode _ e he) (hw.length _ e he)

/-- A directory is copied without what is in it. -/
theorem copyDirectory_ok (hc : e.content = .directory) :
    ∃ names w', outcome (c.copyEntry (.ofNames x) (.ofNames (t ++ [n]))) w =
        (.ok (pairsBelow x (t ++ [n]) names), w') ∧
      w'.volume = w.volume.put ⟨t ++ [n]⟩ (w.volume.newEntry e.content e.mode) ∧
      w'.disk = w.disk ∧ names.Nodup ∧ ∀ m, m ∈ names ↔ Tree.Occupied w'.entries (x ++ [m]) := by
  have hst : e.stat.isDirectory = true := by simp [Entry.stat, hc, Content.isDirectory]
  have hstat : outcome (Volume.requireStat ⟨x⟩) w = (.ok e.stat, w) := by
    rw [outcome_requireStat, stat?, he]
    rfl
  -- The directory is there before it has its mode, and the names are read in between.
  let w₁ : World := { w with volume := w.volume.put ⟨t ++ [n]⟩ (w.volume.newEntry .directory 0o755) }
  have hmake : outcome (VolumeAccess.makeDirectory ⟨t ++ [n]⟩) w = (.ok (), w₁) :=
    outcome_update_ok (add_free hfree hd hdir _ _)
  have hw₁ : w₁.volume.WellFormed :=
    hw.put_new hn hd hdir hfree (by decide : (0o755 : UInt32) ≤ 0o7777) (Nat.zero_le _)
  have hx : w₁.volume.find? ⟨x⟩ = some e := find?_beside he hfree _
  have hlist : outcome (VolumeAccess.list ⟨x⟩) w₁ = (.ok (Text.sortedNames
      (w₁.volume.entries.filterMap fun entry => (Key.mk x).nameIn? entry.1)), w₁) := by
    rw [outcome_list, list_directory hx hc]
  have hall := fun m => mem_list (v := w₁.volume) (x := x) (n := m)
  have hnodup := hw₁.list_nodup x
  generalize Text.sortedNames _ = names at hlist hall hnodup
  have hchmod := chmod_new (w := w₁) rfl (hw.mode _ e he)
  refine ⟨names,
    { w with volume := w.volume.put ⟨t ++ [n]⟩ (w.volume.newEntry .directory e.mode) },
    ?_, by rw [hc], rfl, hnodup, fun m => (hall m).trans ?_⟩
  · have hname : ∀ m ∈ names, IsName m := by
      intro m hm
      obtain ⟨a, ha⟩ := (hall m).1 hm
      exact hw₁.name x m a ha
    unfold copyEntry
    rw [Path.ofNames_key (hw.normal x he), child_key hw hn hd, outcome_bind_ok hstat]
    simp only [hst, if_true]
    rw [outcome_bind_ok hmake, outcome_bind_ok hlist, pairsBelow_children _ _ hname,
      outcome_bind_ok (outcome_pure _ _)]
    exact outcome_bind_ok hchmod _
  · unfold Tree.Occupied World.entries
    simp only [w₁, find?_put]
    split_ifs <;> simp

theorem copyFile_ok {data : List Byte} (hc : e.content = .file data) :
    ∃ w', outcome (c.copyEntry (.ofNames x) (.ofNames (t ++ [n]))) w = (.ok [], w') ∧
      w'.volume = w.volume.put ⟨t ++ [n]⟩ (w.volume.newEntry e.content e.mode) ∧
      w'.disk = w.disk := by
  have hst : e.stat.isDirectory = false := by simp [Entry.stat, hc, Content.isDirectory]
  have hstat : outcome (Volume.requireStat ⟨x⟩) w = (.ok e.stat, w) := by
    rw [outcome_requireStat, stat?, he]
    rfl
  let w₁ : World := { w with volume := w.volume.put ⟨t ++ [n]⟩ (w.volume.newEntry (.file []) 0o644) }
  have hmake : outcome (VolumeAccess.createFile ⟨t ++ [n]⟩) w = (.ok (), w₁) :=
    outcome_update_ok (add_free hfree hd hdir _ _)
  have hbytes : w₁.volume.readable ⟨x⟩ = .ok data := readable_file (find?_beside he hfree _) hc
  have hlen : data.length ≤ longest := by
    have hlen := hw.length _ e he
    rwa [hc] at hlen
  obtain ⟨w₂, hcopy, hv₂, hd₂⟩ := c.copyBytes_ok hbytes (find?_put_self _ _ _) hlen
  have hnew : w₂.volume =
      w.volume.put ⟨t ++ [n]⟩ (w.volume.newEntry (.file data) 0o644) :=
    hv₂.trans (put_put _ _ _ _)
  have hchmod := chmod_new hnew (hw.mode _ e he)
  refine ⟨{ w₂ with volume := w.volume.put ⟨t ++ [n]⟩ (w.volume.newEntry (.file data) e.mode) },
    ?_, by rw [hc], hd₂⟩
  unfold copyEntry
  rw [Path.ofNames_key (hw.normal x he), child_key hw hn hd, outcome_bind_ok hstat]
  simp only [hst, Bool.false_eq_true, if_false]
  rw [outcome_bind_ok hmake, outcome_bind_ok hcopy, outcome_bind_ok (outcome_pure _ _)]
  exact outcome_bind_ok hchmod _

theorem copyEntry_ok :
    ∃ names w', outcome (c.copyEntry (.ofNames x) (.ofNames (t ++ [n]))) w =
        (.ok (pairsBelow x (t ++ [n]) names), w') ∧
      w'.volume = w.volume.put ⟨t ++ [n]⟩ (w.volume.newEntry e.content e.mode) ∧
      w'.disk = w.disk ∧ names.Nodup ∧ ∀ m, m ∈ names ↔ Tree.Occupied w'.entries (x ++ [m]) := by
  cases hc : e.content with
  | directory => simpa only [hc] using c.copyDirectory_ok hw he hn hfree hd hdir hc
  | file data =>
    obtain ⟨w', hcopy, hv, hdisk⟩ := c.copyFile_ok hw he hn hfree hd hdir hc
    refine ⟨[], w', hcopy, by rw [hv, hc], hdisk, .nil, fun m => ?_⟩
    have hw' : w'.volume.WellFormed := hv ▸ copied_wellFormed hw he hn hfree hd hdir
    have hx : w'.volume.find? ⟨x⟩ = some e := by
      rw [hv]
      exact find?_beside he hfree _
    have hnone : w'.volume.find? ⟨x ++ [m]⟩ = none := by
      refine hw'.nothing_below (by simp) (fun e' he' hdir' => ?_)
      rw [hx] at he'
      cases he'
      rw [hc] at hdir'
      cases hdir'
    simp [Tree.Occupied, World.entries, hnone]

end Entry

/-- Where the target has no directory to lie in, nothing is copied. -/
theorem copyEntry_orphan {x t : List String} {n : String}
    (hnames : ∀ m ∈ t ++ [n], IsName m) (ht : ∀ d, w.entries t = some d → d.content ≠ .directory) :
    ∃ fault, outcome (c.copyEntry (.ofNames x) (.ofNames (t ++ [n]))) w = (.error fault, w) ∧
      OfEntry fault ∧
      (w.entries t = none → w.entries (t ++ [n]) = none → ∃ path, fault = .notFound path) := by
  have hadd : ∀ content mode, ∃ fault,
      outcome (update (add ⟨t ++ [n]⟩ content mode)) w = (.error fault, w) ∧
      OfEntry fault ∧
      (w.entries t = none → w.entries (t ++ [n]) = none → ∃ path, fault = .notFound path) := by
    intro content mode
    cases hr : add ⟨t ++ [n]⟩ content mode w.volume with
    | error fault =>
      refine ⟨fault, outcome_update_error hr, add_error hr, fun hmissing hfree => ?_⟩
      rw [add_missing hfree hmissing] at hr
      cases hr
      exact ⟨_, rfl⟩
    | ok v =>
      obtain ⟨p, d, hp, -, hd, hdir, -⟩ := add_ok hr
      rw [key_parent] at hp
      cases hp
      exact absurd hdir (ht d hd)
  unfold copyEntry
  rw [Path.ofNames_key hnames, outcome_bind, outcome_requireStat]
  cases w.volume.stat? (key (.ofNames x)) with
  | none => exact ⟨_, rfl, ⟨_, .inr (.inr rfl)⟩, fun _ _ => ⟨_, rfl⟩⟩
  | some st =>
    dsimp only
    cases hst : st.isDirectory with
    | true =>
      obtain ⟨fault, hfault, hknown⟩ := hadd .directory 0o755
      exact ⟨fault, outcome_bind_error hfault _, hknown⟩
    | false =>
      obtain ⟨fault, hfault, hknown⟩ := hadd (.file []) 0o644
      exact ⟨fault, outcome_bind_error hfault _, hknown⟩

end Client

end VolumeFS
