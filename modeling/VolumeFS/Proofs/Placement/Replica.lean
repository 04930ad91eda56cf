import VolumeFS.Proofs.Placement.Locations

/-!
# Bricks taken for the whole file

A brick file is read in place of a file if in every hint the first brick on
this host has its path. Of a striped file each group that holds a chunk of it
is asked in this way. Without a stripe size the groups are one list, and the
first group with a brick on this host speaks for all of them. What counts as
this host is decided by names, and those of other machines may begin with the
same label.
-/

set_option autoImplicit false

namespace VolumeFS

/-- The first of some bricks that passes for one on this host has this path. -/
def Brick.FirstHere (here file : String) (bricks : List Brick) : Prop :=
  ∃ before b after, bricks = before ++ b :: after ∧
    (∀ other ∈ before, Host.isSame other.host here = false) ∧
    Host.isSame b.host here = true ∧ b.path = file

section Replica

variable {here file : String}

theorem Brick.FirstHere.present {bricks : List Brick} (h : FirstHere here file bricks) :
    ∃ b ∈ bricks, b.path = file ∧ Host.isSame b.host here = true := by
  obtain ⟨before, b, after, rfl, -, hsame, hpath⟩ := h
  exact ⟨b, List.mem_append_right _ List.mem_cons_self, hpath, hsame⟩

theorem Brick.find?_iff {bricks : List Brick} :
    (∃ b, bricks.find? (Host.isSame ·.host here) = some b ∧ b.path = file) ↔
      FirstHere here file bricks := by
  constructor
  · rintro ⟨b, hb, hpath⟩
    obtain ⟨hsame, before, after, hbricks, hbefore⟩ := List.find?_eq_some_iff_append.1 hb
    exact ⟨before, b, after, hbricks, fun o ho => by simpa using hbefore o ho, hsame, hpath⟩
  · rintro ⟨before, b, after, hbricks, hbefore, hsame, hpath⟩
    refine ⟨b, List.find?_eq_some_iff_append.2 ⟨hsame, before, after, hbricks, ?_⟩, hpath⟩
    exact fun o ho => by simpa using hbefore o ho

/-- The first of the bricks of some groups is the first of the first group that has one here. -/
theorem Brick.firstHere_flatten {groups : List (List Brick)} :
    FirstHere here file groups.flatten ↔
      ∃ before group after, groups = before ++ group :: after ∧
        (∀ g ∈ before, ∀ b ∈ g, Host.isSame b.host here = false) ∧
        FirstHere here file group := by
  constructor
  · rw [← find?_iff]
    rintro ⟨b, hb, hpath⟩
    obtain ⟨hsame, before, first, rest, after, hgroups, hbefore, hfirst⟩ :=
      List.find?_flatten_eq_some_iff.1 hb
    exact ⟨before, first ++ b :: rest, after, hgroups,
      fun g hg o ho => by simpa using hbefore g hg o ho, first, b, rest, rfl,
      fun o ho => by simpa using hfirst o ho, hsame, hpath⟩
  · rintro ⟨before, group, after, rfl, hbefore, first, b, rest, rfl, hfirst, hsame, hpath⟩
    refine ⟨before.flatten ++ first, b, rest ++ after.flatten, by simp, fun o ho => ?_, hsame,
      hpath⟩
    rcases List.mem_append.1 ho with ho | ho
    · obtain ⟨g, hg, ho⟩ := List.mem_flatten.1 ho
      exact hbefore g hg o ho
    · exact hfirst o ho

namespace Hint

/-- Every hint has its brick on this host, and they all have this path. -/
theorem onHost?_each {hints : List Hint} :
    (∃ bricks, hints.mapM (onHost? here) = some bricks ∧ ∀ b ∈ bricks, b.path = file) ↔
      ∀ h ∈ hints, Brick.FirstHere here file h.replicas := by
  induction hints with
  | nil => simp
  | cons h hints ih =>
    rw [List.forall_mem_cons, ← ih, ← Brick.find?_iff]
    constructor
    · rintro ⟨bricks, hbricks, hpaths⟩
      simp only [List.mapM_cons, Option.bind_eq_bind, Option.bind_eq_some_iff, Option.pure_def,
        Option.some.injEq] at hbricks
      obtain ⟨b, hb, rest, hrest, rfl⟩ := hbricks
      obtain ⟨hpath, hpaths⟩ := List.forall_mem_cons.1 hpaths
      exact ⟨⟨b, hb, hpath⟩, rest, hrest, hpaths⟩
    · rintro ⟨⟨b, hb, hpath⟩, rest, hrest, hpaths⟩
      change h.onHost? here = some b at hb
      refine ⟨b :: rest, ?_, List.forall_mem_cons.2 ⟨hpath, hpaths⟩⟩
      rw [List.mapM_cons, hb, hrest]
      rfl

theorem localReplica?_eq_some {hints : List Hint} :
    localReplica? here hints = some file ↔
      hints ≠ [] ∧ ∀ h ∈ hints, Brick.FirstHere here file h.replicas := by
  rw [← onHost?_each]
  unfold localReplica?
  simp only [Option.bind_eq_bind, Option.bind_eq_some_iff]
  constructor
  · rintro ⟨bricks, hbricks, first, hfirst, hsame⟩
    split at hsame
    · next hall =>
      cases hsame
      refine ⟨?_, bricks, hbricks, fun b hb => ?_⟩
      · rintro rfl
        cases hbricks
        cases hfirst
      · simpa using List.all_eq_true.1 hall b hb
    · cases hsame
  · rintro ⟨hne, bricks, hbricks, hpaths⟩
    obtain ⟨h, hints, rfl⟩ := List.exists_cons_of_ne_nil hne
    cases bricks with
    | nil =>
      simp [Option.bind_eq_some_iff] at hbricks
    | cons b bricks =>
      have hall : (b :: bricks).all (·.path == b.path) = true := by
        rw [List.all_eq_true]
        intro other hother
        rw [hpaths other hother, hpaths b List.mem_cons_self]
        exact beq_self_eq_true file
      refine ⟨_, hbricks, b, rfl, ?_⟩
      rw [if_pos hall, hpaths b List.mem_cons_self]

theorem insert_last {h : Hint} {hints : List Hint} (hlast : ∀ g ∈ hints, g.offset < h.offset) :
    insert h hints = hints ++ [h] := by
  induction hints with
  | nil => rfl
  | cons g hints ih =>
    obtain ⟨hg, hrest⟩ := List.forall_mem_cons.1 hlast
    rw [insert, if_neg (UInt64.lt_asymm hg), if_neg (UInt64.ne_of_lt hg).symm, ih hrest]
    rfl

/-- Hints in their order are kept as they are. -/
theorem byOffset_sorted {hints : List Hint} (h : hints.Pairwise fun g h => g.offset < h.offset) :
    byOffset hints = hints := by
  induction hints using List.reverseRecOn with
  | nil => rfl
  | append_singleton hints last ih =>
    obtain ⟨hhints, -, hlast⟩ := List.pairwise_append.1 h
    have hfold : byOffset (hints ++ [last]) = insert last (byOffset hints) := by
      unfold byOffset
      rw [List.foldl_append]
      rfl
    rw [hfold, ih hhints, insert_last fun g hg => hlast g hg last List.mem_cons_self]

end Hint

namespace Placement

variable {p : Placement}

/-- The hints for the first bytes are in their order, also where there are no bytes. -/
theorem byOffset_hints (p : Placement) (length : UInt64) :
    Hint.byOffset (p.hints 0 length) = p.hints 0 length ∧ p.hints 0 length ≠ [] := by
  cases hchunk : p.chunkSize? with
  | none =>
    rw [hints_whole hchunk]
    exact ⟨rfl, List.cons_ne_nil _ _⟩
  | some chunkSize =>
    by_cases h0 : length = 0
    · have hnothing : p.hints 0 length = [p.chunkHint chunkSize 0 0 (0 / chunkSize)] := by
        rw [h0, hints, hchunk]
        exact (chunkHints.eq_1 ..).trans (dif_neg (UInt64.not_lt_zero))
      rw [hnothing]
      exact ⟨rfl, List.cons_ne_nil _ _⟩
    · have hpos := Offset.toNat_pos h0
      have hword := Offset.toNat_le_largest length
      obtain ⟨htiles, -⟩ := hints_tiles chunkSize.2 hchunk 0 length hpos
        (by simpa using hword)
      have hsorted := List.pairwise_map.1 htiles.sorted
      refine ⟨Hint.byOffset_sorted hsorted, fun hnil => ?_⟩
      rw [hnil] at htiles
      have : (0 : UInt64).toNat = (0 : UInt64).toNat + length.toNat := htiles
      omega

structure ReadFrom (p : Placement) (here file : String) (length : Nat) : Prop where
  /-- Every group with a chunk of these bytes is asked. -/
  striped : ∀ size, p.stripeSize = some size → size ≠ 0 →
    ∀ chunk, chunk * size.toNat < length →
      ∃ group, p.groups[chunk % p.groups.length]? = some group ∧ Brick.FirstHere here file group
  /-- The first group with a brick on this host is asked and no group after it. -/
  whole : p.stripeSize = none ∨ p.stripeSize = some 0 →
    ∃ before group after, p.groups = before ++ group :: after ∧
      (∀ g ∈ before, ∀ b ∈ g, Host.isSame b.host here = false) ∧
      Brick.FirstHere here file group

/-- The file that the hints for the first bytes name for this host. -/
theorem localReplica?_hints (p : Placement) (length : UInt64) :
    (Hint.localReplica? here (Hint.byOffset (p.hints 0 length)) = some file →
      p.ReadFrom here file length.toNat) ∧
    (length ≠ 0 → p.ReadFrom here file length.toNat →
      Hint.localReplica? here (Hint.byOffset (p.hints 0 length)) = some file) := by
  obtain ⟨hsorted, hne⟩ := p.byOffset_hints length
  rw [hsorted, Hint.localReplica?_eq_some, and_iff_right hne]
  cases hchunk : p.chunkSize? with
  | none =>
    rw [hints_whole hchunk, List.forall_mem_singleton, Brick.firstHere_flatten]
    refine ⟨fun h => ⟨fun size hsize h0 => ?_, fun _ => h⟩, fun _ h => ?_⟩
    · rw [(chunkSize?_eq_some h0).2 hsize] at hchunk
      cases hchunk
    · exact h.whole (chunkSize?_eq_none.1 hchunk)
  | some chunkSize =>
    obtain ⟨size, hsize⟩ := chunkSize
    have hgroups (h0 : length ≠ 0) := hints_groups hsize hchunk 0 length
      (P := Brick.FirstHere here file) (Offset.toNat_pos h0)
      (by simpa using Offset.toNat_le_largest length)
    have hstripe := (chunkSize?_eq_some hsize).1 hchunk
    refine ⟨fun h => ⟨fun size' hsize' _ chunk hlow => ?_, fun hwhole => ?_⟩, fun h0 h => ?_⟩
    · obtain rfl : size = size' := Option.some.inj (hstripe.symm.trans hsize')
      -- There is a hint for an empty file too, but no byte of it lies on a chunk.
      have h0 : length ≠ 0 := by
        rintro rfl
        exact absurd hlow (Nat.not_lt_zero _)
      have hnext := Nat.mul_pos (Nat.succ_pos chunk) (Offset.toNat_pos hsize)
      exact ⟨_, p.group_found chunk, (hgroups h0).1 h chunk (by simpa using hlow) hnext⟩
    · rw [chunkSize?_eq_none.2 hwhole] at hchunk
      cases hchunk
    · refine (hgroups h0).2 fun chunk hlow _ => ?_
      obtain ⟨group, hgroup, hfirst⟩ := h.striped size hstripe hsize chunk (by simpa using hlow)
      rw [p.group_found chunk] at hgroup
      cases hgroup
      exact hfirst

end Placement

end Replica

/-- Which brick file a quick read of the first bytes of a file takes for the file, when the
placement of the file can be read. -/
theorem quickRead_replica (source : String → ExceptT Fault Run (Option String))
    (own path : String) {value : String} {p : Placement} {w w' : World}
    (hp : Placement.parse value = .ok p)
    (hread : outcome (source path) w = (.ok (some value), w')) (length : UInt64) :
    ∃ hints,
      outcome ((Oracle.ofAttribute source own).quickRead path 0 length) w = (.ok (some hints), w') ∧
      ∀ here file,
        (Hint.localReplica? here hints = some file → p.ReadFrom here file length.toNat) ∧
        (length ≠ 0 → p.ReadFrom here file length.toNat →
          Hint.localReplica? here hints = some file) :=
  ⟨_, Oracle.quickRead_outcome hp hread 0 length, fun _ _ => p.localReplica?_hints length⟩

/-- The first chunk of the file is on this host, and that is all there is of four bytes. -/
theorem sliced_replica : ∃ hints,
    outcome (Client.visitor.oracle.quickRead "/f" 0 4) board = (.ok (some hints), board) ∧
    Hint.localReplica? "h" hints = some "/f" ∧ slices.ReadFrom "h" "/f" 4 := by
  obtain ⟨hints, hquick, hreplica⟩ :=
    quickRead_replica placementAttribute "h" "/f" parse_sliced board_read 4
  have hhints : hints = Hint.byOffset (slices.hints 0 4) := by
    rw [Oracle.quickRead_outcome parse_sliced board_read] at hquick
    cases hquick
    rfl
  have hlocal : Hint.localReplica? "h" hints = some "/f" := by
    rw [hhints]
    decide +kernel
  exact ⟨hints, hquick, hlocal, (hreplica "h" "/f").1 hlocal⟩

def scattered : String :=
  "(<POSIX(/b1):h1:/b1/f> <POSIX(/b2):h2:/b2/f>)"

def parts : Placement :=
  ⟨[[⟨"h1", "/b1", "/b1/f"⟩], [⟨"h2", "/b2", "/b2/f"⟩]], none, List.cons_ne_nil _ _⟩

theorem parse_scattered : Placement.parse scattered = .ok parts :=
  Placement.parse_found (by decide +kernel)

/-- The brick of one group is taken for the file, though the other group has nothing on this
host. -/
theorem part_taken_for_whole : ∃ hints,
    outcome ((Oracle.ofAttribute (fun _ => pure (some scattered)) "h1").quickRead "/f" 0 10) board =
      (.ok (some hints), board) ∧
    Hint.localReplica? "h1" hints = some "/b1/f" ∧
    ∃ group ∈ parts.groups, ∀ b ∈ group, Host.isSame b.host "h1" = false :=
  ⟨_, Oracle.quickRead_outcome parse_scattered rfl 0 10, by decide +kernel, by decide +kernel⟩

/-- What a host is called that passes for this host: a brick file is only read in place of a file if
every hint has it on such a host, and of the hosts of a hint the first such host is put first. -/
theorem local_hosts (here : String) :
    (∀ host, Host.isSame host here = true ↔
      Host.Related host here ∨ Host.Namesakes host here) ∧
    (∀ hints file, Hint.localReplica? here hints = some file → ∀ h ∈ hints,
      ∃ b ∈ h.replicas, b.path = file ∧
        (Host.Related b.host here ∨ Host.Namesakes b.host here)) ∧
    ∀ h : Hint, Host.Preferred here (h.replicas.map Brick.host) (Oracle.location here h).hosts := by
  refine ⟨fun host => Host.isSame_iff, fun hints file hlocal h hh => ?_, fun h => ?_⟩
  · obtain ⟨b, hb, hpath, hsame⟩ := ((Hint.localReplica?_eq_some.1 hlocal).2 h hh).present
    exact ⟨b, hb, hpath, Host.isSame_iff.1 hsame⟩
  · exact Host.localFirst_preferred here _

def fullyNamed : Hint :=
  ⟨0, 10, [⟨"Node2", "/b2", "/b2/f"⟩, ⟨"NODE1.example.com", "/b1", "/b1/f"⟩]⟩

theorem fullyNamed_local :
    Hint.localReplica? "node1" [fullyNamed] = some "/b1/f" ∧
    (∃ b ∈ fullyNamed.replicas, b.path = "/b1/f" ∧
      (Host.Related b.host "node1" ∨ Host.Namesakes b.host "node1")) ∧
    (Oracle.location "node1" fullyNamed).hosts = ["NODE1.example.com", "Node2"] := by
  have hlocal : Hint.localReplica? "node1" [fullyNamed] = some "/b1/f" := by decide +kernel
  obtain ⟨-, hreplica, -⟩ := local_hosts "node1"
  exact ⟨hlocal, hreplica _ _ hlocal fullyNamed List.mem_cons_self, by decide +kernel⟩

/-- Another machine is taken for this one because the two addresses, or the two full names, begin
alike. -/
theorem stranger_taken_for_local :
    Hint.localReplica? "10.0.0.1" [⟨0, 10, [⟨"10.0.0.2", "/b", "/b/f"⟩]⟩] = some "/b/f" ∧
    ¬ Host.Related "10.0.0.2" "10.0.0.1" ∧
    (Oracle.location "node1.a.org"
      ⟨0, 10, [⟨"node2.a.org", "/b", "/b/f"⟩, ⟨"node1.b.org", "/b", "/b/f"⟩]⟩).hosts =
        ["node1.b.org", "node2.a.org"] ∧
    ¬ Host.Related "node1.b.org" "node1.a.org" := by
  decide +kernel

end VolumeFS
