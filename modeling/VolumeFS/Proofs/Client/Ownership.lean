import VolumeFS.Proofs.Client.Endless
import VolumeFS.Proofs.Client.Rename

/-!
# Who owns what was renamed

A rename that the volume does itself keeps the owner and the group of all that
it moves. A rename by copy makes new entries, and these belong to the owner of
the volume.
-/

set_option autoImplicit false

namespace VolumeFS

open Volume

namespace Client

def movedEntry (v : Volume) (e : Entry) : Entry :=
  if v.refusesRenames then copyOf v e else e

section Move

variable {c : Client Run} {w w' : World} (hw : w.volume.WellFormed) {x t : List String}
  {n : String} {e : Entry} (he : w.entries x = some e) (hnames : ∀ m ∈ t ++ [n], IsName m)
  (hfree : w.entries (t ++ [n]) = none)

include hw he hnames hfree

/-- A move that is done leads out of the source into a directory. -/
theorem moveTo_done (h : outcome (c.moveTo (.ofNames x) (.ofNames (t ++ [n]))) w = (.ok (), w')) :
    ¬ x <+: t ++ [n] ∧ ∃ d, w.entries t = some d ∧ d.content = .directory := by
  have hx := hw.normal x he
  have hparent : ∃ d, w.entries t = some d ∧ d.content = .directory := by
    by_contra hnone
    obtain ⟨fault, hfault, -⟩ := moveTo_orphan (x := x) c hnames
      fun d hd hdir => hnone ⟨d, hd, hdir⟩
    rw [hfault] at h
    cases h
  obtain ⟨d, hd, hdir⟩ := hparent
  refine ⟨fun hpre => ?_, d, hd, hdir⟩
  have hne : t ++ [n] ≠ x := by
    rintro rfl
    rw [hfree] at he
    cases he
  have hbelow : x <+: t := (List.prefix_concat_iff.1 hpre).resolve_left (Ne.symm hne)
  have hcopy : (outcome (c.copyTree (.ofNames x) (.ofNames (t ++ [n]))) w).1 =
      .error Tree.endless := by
    rw [copyTree_outcome]
    exact copy_below_endless c hw (hnames n (by simp)) hbelow hfree hd hdir _
  have hfault := moveTo_below c hx hnames hpre hne hcopy
  rw [h] at hfault
  cases hfault

/-- All entries at and below the source are moved. -/
theorem moveTo_entries {d : Entry} (hd : w.entries t = some d) (hdir : d.content = .directory)
    (hapart : ¬ x <+: t ++ [n]) :
    ∃ w', outcome (c.moveTo (.ofNames x) (.ofNames (t ++ [n]))) w = (.ok (), w') ∧
      ∀ y, w'.entries (t ++ [n] ++ y) = (w.entries (x ++ y)).map (movedEntry w.volume) := by
  have hn : IsName n := hnames n (by simp)
  unfold movedEntry
  cases hv : w.volume.refusesRenames with
  | false =>
    obtain ⟨w', hmove, hv', -⟩ := moveTo_relocates (c := c) hw he hn hfree hd hdir hapart hv
    refine ⟨w', hmove, fun y => ?_⟩
    have harrived := (relocate_layout hw x hfree).arrived y
    simpa [World.entries, hv'] using harrived
  | true =>
    obtain ⟨-, w₁, w', -, -, -, -, -, hin, hmove, -, hl⟩ :=
      moveTo_copies (c := c) hw he hn hfree hd hdir hapart hv
    refine ⟨w', hmove, fun y => ?_⟩
    have hy : ¬ x <+: t ++ [n] ++ y := apart_below (target_apart hw he hfree) hapart y
    rw [hl, Tree.without, if_neg hy, hin]
    rfl

omit he hnames hfree in
/-- A rename that was done has moved the source to a free place in a directory, unless it was there
already. -/
theorem rename_done {source destination : Path} {q : List String}
    (hp : c.resolver.resolve source = .ok (.ofNames x)) (hx : ∀ m ∈ x, IsName m)
    (hq : c.resolver.resolve destination = .ok (.ofNames q)) (hqnames : ∀ m ∈ q, IsName m)
    (hrun : outcome (c.rename source destination) w = (.ok (), w')) :
    ∃ e t, w.entries x = some e ∧
      outcome ((tree : Tree Run).renameTarget (.ofNames x) (.ofNames q)) w =
        (.ok (.ofNames t), w) ∧
      (t = x ∧ w' = w ∨ t ≠ x ∧
        outcome (c.moveTo (.ofNames x) (.ofNames t)) w = (.ok (), w') ∧
        ∃ z n d, t = z ++ [n] ∧ (∀ m ∈ z ++ [n], IsName m) ∧ w.entries (z ++ [n]) = none ∧
          w.entries z = some d ∧ d.content = .directory ∧ ¬ x <+: z ++ [n]) := by
  obtain ⟨fault, hfault⟩ | ⟨e, t, he, ht, hends⟩ := rename_cases hp hx hq hw hqnames
  · rw [hfault] at hrun
    cases hrun
  refine ⟨e, t, he, ht, ?_⟩
  obtain ⟨htx, hdone⟩ | ⟨htx, z, n, rfl, hnames, hfree, hmove⟩ := hends
  · rw [hdone] at hrun
    cases hrun
    exact .inl ⟨htx, rfl⟩
  · rw [hmove] at hrun
    obtain ⟨hapart, d, hd, hdir⟩ := moveTo_done hw he hnames hfree hrun
    exact .inr ⟨htx, hrun, z, n, d, rfl, hnames, hfree, hd, hdir, hapart⟩

end Move

/-- After a rename that was done, each entry at or below the source has at its new path the owner and
the group that it had. Where it was moved and the volume refuses renames, it has those of the volume
instead. -/
theorem rename_ownership {c : Client Run} (hc : c.resolver.Reached) {w w' : World}
    (hw : w.volume.Reachable) {source destination p q : Path} (hsource : source.Normal)
    (hdestination : destination.Normal) (hp : c.resolver.resolve source = .ok p)
    (hq : c.resolver.resolve destination = .ok q)
    (hrun : outcome (c.rename source destination) w = (.ok (), w')) :
    ∃ target, (outcome ((tree : Tree Run).renameTarget p q) w).1 = .ok target ∧
      ∀ y e, w.volume.find? ⟨p.segments ++ y⟩ = some e →
        ∃ e', w'.volume.find? ⟨target.segments ++ y⟩ = some e' ∧
          (e'.uid, e'.gid) = if target ≠ p ∧ w.volume.refusesRenames = true
            then w.volume.owner else (e.uid, e.gid) := by
  have hwell := hw.wellFormed
  obtain ⟨x, rfl, hx⟩ := Resolver.resolve_names hc.sound hsource hp
  obtain ⟨q, rfl, hqnames⟩ := Resolver.resolve_names hc.sound hdestination hq
  obtain ⟨a, t, ha, ht, hdone⟩ := rename_done hwell hp hx hq hqnames hrun
  refine ⟨.ofNames t, congrArg Prod.fst ht, fun y e he => ?_⟩
  obtain ⟨rfl, rfl⟩ | ⟨hne, hmove, z, n, d, rfl, hnames, hfree, hd, hdir, hapart⟩ := hdone
  · exact ⟨e, he, (if_neg fun h => h.1 rfl).symm⟩
  · obtain ⟨w₁, hmove', hmoved⟩ := moveTo_entries (c := c) hwell ha hnames hfree hd hdir hapart
    rw [hmove'] at hmove
    cases hmove
    have hy : w'.volume.find? ⟨z ++ [n] ++ y⟩ = (w.volume.find? ⟨x ++ y⟩).map
      (movedEntry w.volume) := hmoved y
    rw [show w.volume.find? ⟨x ++ y⟩ = some e from he] at hy
    refine ⟨_, hy, ?_⟩
    have hpath : Path.ofNames (z ++ [n]) ≠ .ofNames x := fun h => hne (Path.ofNames_injective h)
    unfold movedEntry
    cases w.volume.refusesRenames with
    | false => simp
    | true => simp [hpath, copyOf, newEntry]

/-- A world in which the volume has a directory of somebody else, and refuses renames. -/
def estate : World :=
  (calls [.makeDirectory "/a", .chown "/a" 7 8, .refuseRenames true] (.start "v" 0 0 default)).world

theorem estate_reachable : estate.volume.Reachable :=
  ⟨_, _, _, _, _, rfl⟩

/-- The directory is moved. -/
theorem estate_moved : ∃ w', outcome (visitor.rename (.ofNames ["a"]) (.ofNames ["b"])) estate =
      (.ok (), w') ∧ w'.volume.find? ⟨["b"]⟩ = some ⟨.directory, 0o755, 0, 0⟩ := by
  have ha : estate.entries ["a"] = some ⟨.directory, 0o755, 7, 8⟩ := rfl
  have htarget : outcome ((tree : Tree Run).renameTarget (.ofNames ["a"]) (.ofNames ["b"]))
      estate = (.ok (.ofNames ["b"]), estate) := rfl
  have hp : visitor.resolver.resolve (.ofNames ["a"]) = .ok (.ofNames ["a"]) := rfl
  have hq : visitor.resolver.resolve (.ofNames ["b"]) = .ok (.ofNames ["b"]) := rfl
  have hrename := rename_outcome hp (by decide) hq ha
  rw [htarget] at hrename
  dsimp only at hrename
  rw [if_neg (by decide)] at hrename
  obtain ⟨w', hmove, hmoved⟩ := moveTo_entries (c := visitor) (t := []) (n := "b")
    estate_reachable.wellFormed ha (by decide) rfl (d := ⟨.directory, 0o755, 0, 0⟩) rfl rfl
    (by decide)
  exact ⟨w', hrename.trans hmove, hmoved []⟩

theorem estate_falls_to_volume : ∃ w' e',
    outcome (visitor.rename (.ofNames ["a"]) (.ofNames ["b"])) estate = (.ok (), w') ∧
    w'.volume.find? ⟨["b"]⟩ = some e' ∧ (e'.uid, e'.gid) = estate.volume.owner := by
  obtain ⟨w', hrun, -⟩ := estate_moved
  have ha : (Path.ofNames ["a"]).Normal := Path.leads_names.2 (by decide)
  have hb : (Path.ofNames ["b"]).Normal := Path.leads_names.2 (by decide)
  obtain ⟨target, htarget, hmoved⟩ :=
    rename_ownership visitor_reached estate_reachable ha hb rfl rfl hrun
  obtain rfl : Path.ofNames ["b"] = target := Except.ok.inj htarget
  obtain ⟨e', he', howner⟩ := hmoved [] ⟨.directory, 0o755, 7, 8⟩ rfl
  exact ⟨w', e', hrun, he', howner.trans (if_pos (by decide))⟩

/-- The directory does not stay with its owner and its group. -/
theorem estate_changes_hands : ∃ w' e e',
    outcome (visitor.rename (.ofNames ["a"]) (.ofNames ["b"])) estate = (.ok (), w') ∧
    estate.volume.find? ⟨["a"]⟩ = some e ∧ w'.volume.find? ⟨["b"]⟩ = some e' ∧
    e'.uid ≠ e.uid ∧ e'.gid ≠ e.gid := by
  obtain ⟨w', hrun, hb⟩ := estate_moved
  exact ⟨w', _, _, hrun, rfl, hb, by decide, by decide⟩

end Client

end VolumeFS
