import VolumeFS.Proofs.Client.Endless
import VolumeFS.Proofs.Client.Rename
import VolumeFS.Proofs.Contract.Runs

/-!
# Renaming a path onto itself

Where a rename leads is told by what the destination is, before it is compared
with the source. So a file stays where it is, but a directory is to be moved into
itself: the client copies it without an end, and the system refuses the move.
-/

set_option autoImplicit false

namespace VolumeFS

namespace Tree

variable {t : Tree Run} {w : World}

theorem renameTarget_file {p : Path} (hkind : outcome (t.kind p) w = (.ok (some .file), w)) :
    outcome (t.renameTarget p p) w = (.ok p, w) := by
  have hplace : outcome (t.placeIn p p) w = (.ok p, w) := by
    unfold placeIn
    rw [outcome_bind_ok hkind]
    rfl
  unfold renameTarget
  rw [outcome_bind_ok hplace, if_pos rfl]
  rfl

variable {x : List String} {n : String} (hn : IsName n)
  (hkind : outcome (t.kind (.ofNames (x ++ [n]))) w = (.ok (some .directory), w))

include hn hkind

/-- A directory has its own name in itself as the target. -/
theorem renameTarget_directory :
    outcome (t.renameTarget (.ofNames (x ++ [n])) (.ofNames (x ++ [n]))) w =
      match outcome (t.kind (.ofNames (x ++ [n] ++ [n]))) w with
      | (.ok none, w') => (.ok (.ofNames (x ++ [n] ++ [n])), w')
      | (.ok (some _), w') => (.error (.alreadyExists (Path.ofNames (x ++ [n] ++ [n])).text), w')
      | (.error fault, w') => (.error fault, w') := by
  have hname : (Path.ofNames (x ++ [n])).name? = some n := by simp [Path.name?, Path.ofNames]
  have hplace : outcome (t.placeIn (.ofNames (x ++ [n])) (.ofNames (x ++ [n]))) w =
      (.ok (.ofNames (x ++ [n] ++ [n])), w) := by
    have hchild := Path.ofNames_child (x ++ [n]) hn
    unfold placeIn
    rw [outcome_bind_ok hkind, hname, ← hchild]
    rfl
  have hne : Path.ofNames (x ++ [n] ++ [n]) ≠ .ofNames (x ++ [n]) := by
    intro h
    simpa using Path.ofNames_injective h
  unfold renameTarget
  rw [outcome_bind_ok hplace, if_neg hne, outcome_bind]
  rcases outcome (t.kind (.ofNames (x ++ [n] ++ [n]))) w with ⟨_ | _ | _, w'⟩ <;> rfl

theorem renameTarget_moves :
    (outcome (t.renameTarget (.ofNames (x ++ [n])) (.ofNames (x ++ [n]))) w).1 ≠
      .ok (.ofNames (x ++ [n])) := by
  rw [renameTarget_directory hn hkind]
  rcases outcome (t.kind (.ofNames (x ++ [n] ++ [n]))) w with ⟨_ | _ | _, w'⟩
  · simp
  · intro h
    have hsame := Path.ofNames_injective (Except.ok.inj h)
    simp at hsame
  · simp

end Tree

namespace Client

open Volume

variable {c : Client Run} {w : World} {source : Path} {x : List String} {n : String} {e : Entry}
  (hw : w.volume.WellFormed) (hp : c.resolver.resolve source = .ok (.ofNames (x ++ [n])))
  (he : w.volume.find? ⟨x ++ [n]⟩ = some e)

include hw hp he

theorem rename_itself : outcome (c.rename source source) w =
    match outcome ((tree : Tree Run).renameTarget (.ofNames (x ++ [n])) (.ofNames (x ++ [n]))) w with
    | (.error fault, w') => (.error fault, w')
    | (.ok target, w') => if target = .ofNames (x ++ [n]) then (.ok (), w')
        else outcome (c.moveTo (.ofNames (x ++ [n])) target) w' :=
  rename_outcome hp (hw.normal _ he) hp he

theorem rename_file_itself (hfile : e.kind = .file) :
    outcome (c.rename source source) w = (.ok (), w) := by
  have hkind := tree_kind (hw.normal _ he) w
  unfold World.entries at hkind
  rw [he, Option.map_some, hfile] at hkind
  rw [rename_itself hw hp he, Tree.renameTarget_file hkind]
  exact if_pos rfl

theorem rename_directory_itself (hdir : e.kind = .directory) :
    (w.volume.find? ⟨x ++ [n] ++ [n]⟩ = none → EndlessRename c w source source) ∧
    (w.volume.find? ⟨x ++ [n] ++ [n]⟩ ≠ none → outcome (c.rename source source) w =
      (.error (.alreadyExists (Path.ofNames (x ++ [n] ++ [n])).text), w)) := by
  have hx := hw.normal _ he
  have hn : IsName n := hx n (by simp)
  have hchild : ∀ m ∈ x ++ [n] ++ [n], IsName m := by
    simpa [or_imp, forall_and] using hx
  have hkind := tree_kind hx w
  have hbelow := tree_kind hchild w
  unfold World.entries at hkind hbelow
  rw [he, Option.map_some, hdir] at hkind
  have htarget := Tree.renameTarget_directory hn hkind
  rw [hbelow] at htarget
  constructor
  · intro hfree
    rw [hfree] at htarget
    refine ⟨_, _, _, hp, hp, congrArg Prod.fst htarget, fun fuel => ?_⟩
    exact copy_below_endless c hw hn (List.prefix_refl _) hfree he (kind_directory.1 hdir) fuel
  · intro htaken
    obtain ⟨a, ha⟩ := Option.ne_none_iff_exists'.1 htaken
    rw [ha] at htarget
    rw [rename_itself hw hp he, htarget]
    rfl

end Client

namespace Mount

open Disk

variable {t : Mount Run} {base : Place} {w : World} {source : Path} {x : List String} {n : String}
  {a : Node}

theorem rename_file_itself {p : Path} (hp : outcome (t.enter source) w = (.ok p, w))
    (hkind : outcome (t.kind p) w = (.ok (some .file), w)) :
    outcome (t.rename source source) w = (.ok (), w) := by
  unfold rename
  rw [outcome_bind_ok hp, outcome_bind_ok hp, outcome_bind_ok hkind]
  change outcome (t.tree.renameTarget p p >>= _) w = _
  rw [outcome_bind_ok (Tree.renameTarget_file hkind), if_pos rfl]
  rfl

variable (h : t.Holds base w.disk) (hp : outcome (t.enter source) w = (.ok (.ofNames (x ++ [n])), w))
  (ha : w.disk.under base (x ++ [n]) = some a) (hdir : a.kind = .directory)

include h ha hdir

include hp

/-- The system does not move a directory into itself. -/
theorem rename_directory_itself :
    ∃ fault, outcome (t.rename source source) w = (.error fault, w) := by
  have hfits := h.fits _ _ ha
  have hentry : EntryName n := hfits.names n (by simp)
  have hentries : ∀ m ∈ x ++ [n] ++ [n], EntryName m := by
    simpa [or_imp, forall_and] using hfits.names
  obtain ⟨mode, hx⟩ := h.above ha
  obtain ⟨mode', rfl⟩ := isDirectory_iff.1 (kind_directory.1 hdir)
  have hkind := kind_below h hfits (h.clear_found ha)
  rw [ha] at hkind
  have htarget := Tree.renameTarget_directory (t := t.tree) hentry.name hkind
  unfold rename
  rw [outcome_bind_ok hp, outcome_bind_ok hp, outcome_bind_ok hkind]
  change ∃ fault, outcome (t.tree.renameTarget _ _ >>= _) w = _
  have hsame : t.tree.kind (.ofNames (x ++ [n] ++ [n])) = t.kind (.ofNames (x ++ [n] ++ [n])) := rfl
  rw [hsame] at htarget
  by_cases hshort : (t.localPath (.ofNames (x ++ [n] ++ [n]))).utf8ByteSize ≤ pathLimit
  · rw [kind_below h ⟨hentries, hshort⟩ (h.clear_child ha n)] at htarget
    cases hunder : w.disk.under base (x ++ [n] ++ [n]) with
    | some b =>
      rw [hunder] at htarget
      exact ⟨_, outcome_bind_error htarget _⟩
    | none =>
      rw [hunder] at htarget
      have hrefused : Disk.rename (t.localPath (.ofNames (x ++ [n])))
          (t.localPath (.ofNames (x ++ [n] ++ [n]))) w.disk = .error invalid := by
        refine Disk.rename_inward (parent_found h hfits hx) hentry
          (parent_found h ⟨hentries, hshort⟩ ha) hentry ((under_child ..).symm.trans ha) ?_ ?_
        · rw [List.append_assoc base x]
          exact List.prefix_append _ _
        · simp
      rw [outcome_bind_ok htarget, if_neg fun he => by simpa using Path.ofNames_injective he]
      exact ⟨_, outcome_update_error hrefused⟩
  · obtain ⟨e, hlong⟩ := kind_long (h.seated.localPath_nul _ hentries) (Nat.lt_of_not_le hshort) w
    rw [hlong] at htarget
    exact ⟨_, outcome_bind_error htarget _⟩

end Mount

open Volume

/-- Renamed onto itself, a file stays where it is and nothing else changes. A directory is never its
own target: on a volume the client would copy it without an end or refuses, and on a disk the rename
fails. -/
theorem rename_onto_itself {source : Path} {x : List String} {n : String}
    (hnames : ∀ m ∈ x ++ [n], IsName m) :
    (∀ (t : Tree Run) (w : World),
      (outcome (t.kind (.ofNames (x ++ [n]))) w = (.ok (some .file), w) →
        outcome (t.renameTarget (.ofNames (x ++ [n])) (.ofNames (x ++ [n]))) w =
          (.ok (.ofNames (x ++ [n])), w)) ∧
      (outcome (t.kind (.ofNames (x ++ [n]))) w = (.ok (some .directory), w) →
        (outcome (t.renameTarget (.ofNames (x ++ [n])) (.ofNames (x ++ [n]))) w).1 ≠
          .ok (.ofNames (x ++ [n])))) ∧
    (∀ (c : Client Run) (w : World) (e : Entry), w.volume.Reachable →
      c.resolver.resolve source = .ok (.ofNames (x ++ [n])) →
      w.volume.find? ⟨x ++ [n]⟩ = some e →
      (e.kind = .file → outcome (c.rename source source) w = (.ok (), w)) ∧
      (e.kind = .directory → w.volume.find? ⟨x ++ [n] ++ [n]⟩ = none →
        Client.EndlessRename c w source source) ∧
      (e.kind = .directory → w.volume.find? ⟨x ++ [n] ++ [n]⟩ ≠ none →
        outcome (c.rename source source) w =
          (.error (.alreadyExists (Path.ofNames (x ++ [n] ++ [n])).text), w))) ∧
    ∀ (t : Mount Run) (base : Disk.Place) (w : World) (a : Disk.Node), t.Holds base w.disk →
      outcome (t.enter source) w = (.ok (.ofNames (x ++ [n])), w) →
      w.disk.under base (x ++ [n]) = some a →
      (a.kind = .file → outcome (t.rename source source) w = (.ok (), w)) ∧
      (a.kind = .directory → ∃ fault, outcome (t.rename source source) w = (.error fault, w)) := by
  refine ⟨fun t w => ⟨Tree.renameTarget_file, Tree.renameTarget_moves (hnames n (by simp))⟩,
    fun c w e hw hp he => ?_, fun t base w a h hp ha => ⟨fun hfile => ?_, fun hdir => ?_⟩⟩
  · have hwell := hw.wellFormed
    exact ⟨Client.rename_file_itself hwell hp he,
      fun hdir => (Client.rename_directory_itself hwell hp he hdir).1,
      fun hdir => (Client.rename_directory_itself hwell hp he hdir).2⟩
  · refine Mount.rename_file_itself hp ?_
    rw [Mount.kind_below h (h.fits _ _ ha) (h.clear_found ha), ha, Option.map_some, hfile]
  · exact Mount.rename_directory_itself h hp ha hdir

/-- A directory is made under the mounted one. -/
theorem harbour_mkdirs : ∃ (w : World) (a : Disk.Node), moored.Holds ["mnt"] w.disk ∧
    w.disk.under ["mnt"] ["a"] = some a ∧ a.kind = .directory := by
  have husable : Operation.Usable moored harbour.contents (.ofNames ["a"]) :=
    usable_among harbour_directories (by simpa using ⟨by decide, by simp, by decide⟩) (by decide)
      (by decide)
  have hop : (Operation.mkdirs (.ofNames ["a"])).Allowed moored harbour.contents :=
    ⟨by simpa [Operation.paths] using husable, trivial⟩
  obtain ⟨-, hmirrors⟩ := Operation.step_agrees moored_paired harbour_mirrors hop trivial
  have hcontents := congrFun hmirrors.contents ["a"]
  rw [harbour_made (by simp) hop, Tree.made, if_pos (by simp)] at hcontents
  obtain ⟨mode, ha⟩ := Mount.contents_directory hcontents
  exact ⟨_, .directory mode, hmirrors.disk, ha, rfl⟩

theorem paths_onto_themselves :
    outcome (Client.visitor.rename (.ofNames ["a", "f"]) (.ofNames ["a", "f"])) Client.shelf =
      (.ok (), Client.shelf) ∧
    Client.EndlessRename Client.visitor Client.shelf (.ofNames ["a"]) (.ofNames ["a"]) ∧
    ∃ (w : World) (fault : Fault), w.disk.under ["mnt"] ["a"] ≠ none ∧
      outcome (moored.rename (.ofNames ["a"]) (.ofNames ["a"])) w = (.error fault, w) := by
  have hfile : ∀ m ∈ ["a"] ++ ["f"], IsName m := by decide
  have hdir : ∀ m ∈ [] ++ ["a"], IsName m := by decide
  obtain ⟨-, hclient, -⟩ := @rename_onto_itself (.ofNames ["a", "f"]) _ _ hfile
  obtain ⟨-, hclient', hmount⟩ := @rename_onto_itself (.ofNames ["a"]) _ _ hdir
  refine ⟨(hclient _ _ _ Client.shelf_reachable rfl rfl).1 rfl,
    (hclient' _ _ _ Client.shelf_reachable rfl rfl).2.1 rfl rfl, ?_⟩
  obtain ⟨w, a, h, ha, hkind⟩ := harbour_mkdirs
  have henter := Mount.enter_outcome (t := moored) (p := .ofNames ["a"]) rfl rfl rfl (by decide) w
  obtain ⟨fault, hend⟩ := (hmount moored ["mnt"] w a h henter ha).2 hkind
  exact ⟨w, fault, by rw [ha]; simp, hend⟩

/-- The directory `/a` is to become `/a/a`. -/
theorem directory_into_itself :
    (outcome ((Client.tree : Tree Run).renameTarget (.ofNames ["a"]) (.ofNames ["a"]))
      Client.shelf).1 = .ok (.ofNames ["a", "a"]) := rfl

end VolumeFS
