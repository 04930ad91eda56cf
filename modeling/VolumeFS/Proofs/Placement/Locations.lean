import VolumeFS.Proofs.Client.Rename
import VolumeFS.Proofs.Mount.Revisit
import VolumeFS.Proofs.Placement.Chunks
import VolumeFS.Proofs.Placement.Hosts

/-!
# Where a part of a file lies

The locations that a client or a mount gives for a part of a file, when the
placement attribute of the file can be read, make up just that part of it which
lies inside the file. Those of a striped file follow its chunks, and the hosts
of each are the hosts of one group.
-/

set_option autoImplicit false

namespace VolumeFS

namespace Oracle

variable {source : String → ExceptT Fault Run (Option String)} {here path value : String}
  {p : Placement} {w w' : World} (hp : Placement.parse value = .ok p)
  (hread : outcome (source path) w = (.ok (some value), w'))

include hp hread

theorem placement?_outcome : outcome (placement? source path) w = (.ok (some p), w') := by
  unfold placement?
  rw [outcome_bind_ok hread, Option.bind_some, hp]
  rfl

theorem locations_outcome (start length : UInt64) :
    outcome ((ofAttribute source here).locations path start length) w =
      (.ok ((p.hints start length).map (location here)), w') := by
  change outcome (placement? source path >>= _) w = _
  rw [outcome_bind_ok (placement?_outcome hp hread)]
  rfl

theorem quickRead_outcome (start length : UInt64) :
    outcome ((ofAttribute source here).quickRead path start length) w =
      (.ok (some (Hint.byOffset (p.hints start length))), w') := by
  change outcome (placement? source path >>= _) w = _
  rw [outcome_bind_ok (placement?_outcome hp hread)]
  rfl

end Oracle

namespace Placement

theorem parse_found {value : String} {p : Placement}
    (h : ofTokens? (Token.scan value.toList) = some p) : parse value = .ok p := by
  rw [parse, h]

/-- What has to be said of the bytes from `start` up to `stop` of a file with this placement. -/
structure Located (p : Placement) (here : String) (start stop : Nat)
    (locations : List BlockLocation) : Prop where
  tiles : Tiles start stop (locations.map fun l => (l.offset, l.length))
  /-- Each range of a striped file lies within the chunk that it begins in. -/
  striped : ∀ size, p.stripeSize = some size → size ≠ 0 → ∀ l ∈ locations,
    l.offset.toNat + l.length.toNat ≤ (l.offset.toNat / size.toNat + 1) * size.toNat ∧
    ∃ group, p.groups[l.offset.toNat / size.toNat % p.groups.length]? = some group ∧
      Host.Preferred here (group.map Brick.host) l.hosts
  whole : p.stripeSize = none ∨ p.stripeSize = some 0 → ∃ l, locations = [l] ∧
    Host.Preferred here (p.groups.flatten.map Brick.host) l.hosts

theorem hints_located (p : Placement) (here : String) (start length : UInt64)
    (hpos : 0 < length.toNat) (hword : start.toNat + length.toNat ≤ Offset.largest) :
    p.Located here start.toNat (start.toNat + length.toNat)
      ((p.hints start length).map (Oracle.location here)) := by
  have hranges : ((p.hints start length).map (Oracle.location here)).map
      (fun l => (l.offset, l.length)) = (p.hints start length).map Hint.range := by
    rw [List.map_map]
    rfl
  cases hchunk : p.chunkSize? with
  | none =>
    rw [hints_whole hchunk] at hranges ⊢
    refine ⟨⟨rfl, hpos, rfl⟩, fun size hsize h0 => ?_, fun _ => ?_⟩
    · rw [(chunkSize?_eq_some h0).2 hsize] at hchunk
      cases hchunk
    · exact ⟨_, rfl, Host.localFirst_preferred here _⟩
  | some chunkSize =>
    obtain ⟨htiles, hchunks⟩ := hints_tiles chunkSize.2 hchunk start length hpos hword
    refine ⟨by rwa [hranges], fun size hsize h0 l hl => ?_, fun hwhole => ?_⟩
    · rw [(chunkSize?_eq_some h0).2 hsize] at hchunk
      cases hchunk
      obtain ⟨hint, hmem, rfl⟩ := List.mem_map.1 hl
      obtain ⟨hwithin, hreplicas⟩ := hchunks hint hmem
      refine ⟨hwithin, _, p.group_found _, ?_⟩
      change Host.Preferred here
        ((p.group (hint.offset.toNat / size.toNat)).map Brick.host) _
      rw [← hreplicas]
      exact Host.localFirst_preferred here _
    · rw [chunkSize?_eq_none.2 hwhole] at hchunk
      cases hchunk

end Placement

theorem Client.blockLocations_found {c : Client Run} {s : Status}
    {start length start' length' : UInt64}
    (hrange : Offset.clampRange s.length start length = some (start', length')) (w : World) :
    outcome (c.blockLocations s start length) w =
      outcome (orElseOf (c.oracle.locations s.path.unqualified.text start' length') []) w := by
  unfold Client.blockLocations
  rw [hrange]

theorem Client.blockLocations_outside {c : Client Run} {s : Status} {start length : UInt64}
    (hrange : Offset.clampRange s.length start length = none) (w : World) :
    outcome (c.blockLocations s start length) w = (.ok [], w) := by
  unfold Client.blockLocations
  rw [hrange]
  rfl

theorem Mount.blockLocations_outside {t : Mount Run} {s : Status} {start length : UInt64}
    (hphase : t.phase = .mounted) (hrange : Offset.clampRange s.length start length = none)
    (w : World) : outcome (t.blockLocations s start length) w = (.ok [], w) := by
  unfold Mount.blockLocations
  rw [outcome_bind_ok (requireMounted_outcome hphase w), hrange]
  rfl

/-- The locations of a part of a file, as a client and a mount give them when the placement of the
file can be read. Outside the file there are none. -/
theorem blockLocations_partition (source : String → ExceptT Fault Run (Option String))
    (here : String) {value : String} {p : Placement} (hp : Placement.parse value = .ok p)
    (s : Status) (start length : UInt64) :
    ∃ locations,
      (if start.toNat < min (start.toNat + length.toNat) s.length.toNat then
        p.Located here start.toNat (min (start.toNat + length.toNat) s.length.toNat) locations
      else locations = []) ∧
      (∀ (c : Client Run) (w w' : World), c.oracle = .ofAttribute source here →
        outcome (source s.path.unqualified.text) w = (.ok (some value), w') →
        (outcome (c.blockLocations s start length) w).1 = .ok locations) ∧
      ∀ (t : Mount Run) (q : Path) (w w' : World), t.oracle = .ofAttribute source here →
        t.phase = .mounted → t.logical s.path.unqualified = .ok q →
        outcome (source (t.localPath q)) w = (.ok (some value), w') →
        (outcome (t.blockLocations s start length) w).1 = .ok locations := by
  by_cases hmeets : start.toNat < min (start.toNat + length.toNat) s.length.toNat
  · obtain ⟨n, hrange, hstop⟩ := Offset.clampRange_found hmeets
    have hword := Offset.toNat_le_largest s.length
    have hlocated := p.hints_located here start n (by omega) (by omega)
    rw [hstop] at hlocated
    refine ⟨_, by rwa [if_pos hmeets], fun c w w' hc hread => ?_,
      fun t q w w' ht hphase hq hread => ?_⟩
    · rw [Client.blockLocations_found hrange, outcome_orElseOf, hc,
        Oracle.locations_outcome hp hread]
      rfl
    · rw [Mount.blockLocations_seen hphase hq hrange, outcome_orElseOf, ht,
        Oracle.locations_outcome hp hread]
      rfl
  · have hrange := Offset.clampRange_outside hmeets
    refine ⟨[], by rw [if_neg hmeets], fun c w w' _ _ => ?_, fun t q w w' _ hphase _ _ => ?_⟩
    · rw [Client.blockLocations_outside hrange]
    · rw [Mount.blockLocations_outside hphase hrange]

/-- Chunks of four bytes, the even ones on two bricks and the odd ones on a third. -/
def sliced : String :=
  "<STRIPE:s[4]> (<REPLICATE:r> <POSIX(/b1):g:/f> <POSIX(/b2):h.lan:/f>) <POSIX(/b3):k:/f>"

def slices : Placement :=
  ⟨[[⟨"g", "/b1", "/f"⟩, ⟨"h.lan", "/b2", "/f"⟩], [⟨"k", "/b3", "/f"⟩]], some 4,
    List.cons_ne_nil _ _⟩

theorem parse_sliced : Placement.parse sliced = .ok slices :=
  Placement.parse_found (by decide +kernel)

def board : World :=
  (Volume.calls [.createFile "/f", .setAttribute "/f" Shell.pathinfoName sliced]
    (.start "v" 0 0 default)).world

def placementAttribute (path : String) : ExceptT Fault Run (Option String) :=
  VolumeAccess.attributeOf (Volume.Key.ofText path) Shell.pathinfoName

theorem board_read :
    outcome (placementAttribute "/f") board = (.ok (some sliced), board) := rfl

/-- Asked for more than is there of the ten bytes from the third on, a client gives ranges up to the
end of the file. -/
theorem sliced_located : ∃ locations, slices.Located "h" 3 10 locations ∧
    (outcome (Client.visitor.blockLocations (.file (.ofNames ["f"]) 10) 3 100) board).1 =
      .ok locations := by
  obtain ⟨locations, hlocated, hclient, -⟩ :=
    blockLocations_partition placementAttribute "h" parse_sliced (.file (.ofNames ["f"]) 10) 3 100
  exact ⟨locations, hlocated, hclient Client.visitor board board rfl board_read⟩

end VolumeFS
