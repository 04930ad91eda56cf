import VolumeFS.Proofs.Mount.Session

/-!
# Sessions on a mount that create the same file

A mount looks whether a path is free, makes the directories above it and then
opens the file, which creates it or empties it. Between the look and the opening
others may have come. So of several sessions that create the same file each one
that looked early enough gets a stream, and who opens the file late empties what
the others have written, even what they have closed. Only who looks when the
file is there is told so. What is certain is that some session gets a stream,
that a lone one finds its bytes in the file, and that nothing else is touched.
-/

set_option autoImplicit false

namespace VolumeFS

open Disk

namespace Mount

section Sessions

open Overlap

variable {k : Nat} (t : Mount (Steps World)) (p q : Path) (options : Fin k → CreateOptions)
  (chunks : Fin k → List (List Byte)) (w : World)

def sessions : Crowd (Fin k) World (Except Fault Unit) :=
  ⟨fun i => (t.session p (options i) (chunks i)).run, w⟩

def Free (d : Disk) : Prop :=
  ∃ x base y n, q = .ofNames (x ++ y ++ [n]) ∧ t.FreePlace d x base y n

end Sessions

section Drafts

def meeting : Mount (Steps World) :=
  { Mount.ofConfig { Config.ofBackend .fuse with mount := some "/mnt" } "h"
      (.ofTable ⟨[], [], [], []⟩) with phase := .mounted }

def bare : World := .ofDisk (.ofDirectories [["mnt"]])

def draft : Path := .ofNames ["f"]

def own (i : Fin 2) : List (List Byte) := [[UInt8.ofNat i.val]]

def drafts : Crowd (Fin 2) World (Except Fault Unit) :=
  meeting.sessions draft (fun _ => ⟨false, none, none⟩) own bare

theorem bare_directory : bare.disk.walk linkLimit [] ["", "mnt"] =
    .ok ⟨["mnt"], some (.directory 0o755)⟩ := by
  have hroot : bare.disk.node? [] = some (.directory 0o755) := rfl
  have hmnt : bare.disk.node? ["mnt"] = some (.directory 0o755) := rfl
  simp [walk, hroot, hmnt, show ¬ nameLimit < "mnt".utf8ByteSize by decide]

theorem draft_free : meeting.Free draft bare.disk := by
  refine ⟨[], ["mnt"], [], "f", rfl, by decide, ⟨?_, by decide⟩, ⟨0o755, ?_⟩, ?_⟩
  · intro n hn
    obtain rfl := List.mem_singleton.1 hn
    exact ⟨by decide, by simp, by decide⟩
  · exact find_walked.2 ⟨[], rfl, bare_directory⟩
  · intro z hz hle
    rcases List.prefix_concat_iff.1 hle with rfl | hle
    · rfl
    · exact absurd (List.prefix_nil.1 hle) hz

theorem own_short (i : Fin 2) : (own i).flatten.length ≤ Volume.longest := by
  change 1 ≤ Volume.longest
  decide

end Drafts

section Sessions

open Overlap

variable {k : Nat} (t : Mount (Steps World)) (p q : Path) (options : Fin k → CreateOptions)
  (chunks : Fin k → List (List Byte)) (w : World)
  (hphase : t.phase = .mounted) (hq : t.logical p = .ok q) (hfree : t.Free q w.disk)
  (hnew : ∀ i, (options i).overwrite = false)
  (hroom : ∀ i, (chunks i).flatten.length ≤ Volume.longest) (hk : 0 < k)

include hphase hq hfree hnew hroom hk

/-- Sessions that create the same file do so side by side. Each of them fills the file or is told
that it is there, and some session fills it. What a session wrote is in the file if no other one got
a stream; and who comes when the file is there gets none. Nothing else on the disk is changed. -/
theorem sessions_overlap :
    (sessions t p options chunks w).Ends (fun results w' =>
      (∀ i, results i = .ok () ∨ results i = .error (.alreadyExists q.text)) ∧
      (∃ i, results i = .ok ()) ∧
      ∃ place number, w'.disk.find (t.localPath q) = .ok (place, .file number) ∧
        Enlarged place w.disk w'.disk ∧
        ∀ i, results i = .ok () → (∀ j, j ≠ i → results j ≠ .ok ()) →
          (w'.disk.body number).data = (chunks i).flatten) ∧
    ∀ c i place number, (sessions t p options chunks w).Reaches c →
      c.parties i = (t.session p (options i) (chunks i)).run →
      c.shared.disk.find (t.localPath q) = .ok (place, .file number) →
      c.Ends fun results _ => results i = .error (.alreadyExists q.text) := by
  obtain ⟨x, base, y, n, rfl, hplace⟩ := hfree
  let start : Overlap (Fin k) w.disk base y n :=
    ⟨w, fun _ => False, .refl hplace.vacant, fun _ => rfl⟩
  have hholds : (overlap (Fin k) w.disk base y n).Holds
      (fun i => Done i (.ofNames (x ++ y ++ [n])) (chunks i)) (sessions t p options chunks w)
      start :=
    ⟨rfl, fun i s hsees => session_keeps hplace hphase hq (hnew i) (hroom i) hsees.2.1⟩
  refine ⟨hholds.ends fun results s _ hdone => ?_, fun c i place number hc hi hthere => ?_⟩
  · obtain ⟨number, hfile⟩ := (hdone ⟨0, hk⟩).file
    refine ⟨fun i => (hdone i).told, ?_, base ++ (y ++ [n]), number, place_file hplace hfile,
      s.grown.enlarged, fun i hok halone => ?_⟩
    · -- If nobody had found the place free, no file would be there.
      by_contra hnone
      have hpassed : ∀ i, ¬ s.passed i := fun i hi => hnone ⟨i, (hdone i).ok_iff.2 hi⟩
      rw [File, s.untouched hpassed, hplace.vacant _ (by simp) (List.prefix_refl _)] at hfile
      cases hfile
    · exact (hdone i).data ((hdone i).ok_iff.1 hok)
        (fun j hj hpassed => halone j hj ((hdone j).ok_iff.2 hpassed)) hfile
  · obtain ⟨s, -, hs⟩ := hholds.reaches hc
    have hfile : ∃ number, File s number := by
      rcases place_cases hplace s with hnone | hfile
      · rw [← hs.shared] at hthere
        cases hnone.symm.trans hthere
      · exact hfile
    refine c.ends_of_rests fun e results he hrests => ?_
    obtain ⟨-, -, -, hparty⟩ := late_told hplace hphase hq (hnew i) hs hfile hi he
    rw [hrests i] at hparty
    rcases hparty with hsession | hdone
    · rw [t.session_look hphase hq (hnew i)] at hsession
      cases hsession
    · exact Steps.done.inj hdone

end Sessions

theorem drafts_overlap : drafts.Ends fun results w =>
    (∀ i, results i = .ok () ∨ results i = .error (.alreadyExists "/f")) ∧
    (∃ i, results i = .ok ()) ∧
    ∃ place number, w.disk.find "/mnt/f" = .ok (place, .file number) ∧
      Enlarged place bare.disk w.disk ∧
      (results 0 = .ok () → results 1 ≠ .ok () → (w.disk.body number).data = [0]) := by
  obtain ⟨hends, -⟩ := sessions_overlap meeting draft draft (fun _ => ⟨false, none, none⟩)
    own bare rfl rfl draft_free (fun _ => rfl)
    own_short (by decide)
  refine hends.mono fun results w h => ?_
  obtain ⟨htold, hsome, place, number, hfind, hrest, hdata⟩ := h
  refine ⟨htold, hsome, place, number, hfind, hrest, fun hfirst hsecond => ?_⟩
  refine hdata 0 hfirst fun j hj => ?_
  obtain rfl : j = 1 := by omega
  exact hsecond

section Wiped

open Overlap

variable {t : Mount (Steps World)} {p q : Path} {options : Fin 2 → CreateOptions}
  {chunks : Fin 2 → List (List Byte)} {w : World}

/-- The first of two sessions may come to its end while the other one has only had its first look.
Then the other one gets a stream too and empties the file. -/
theorem first_wiped (hphase : t.phase = .mounted) (hq : t.logical p = .ok q)
    (hfree : t.Free q w.disk) (hnew : ∀ i, (options i).overwrite = false)
    (hroom : ∀ i, (chunks i).flatten.length ≤ Volume.longest) :
    ∃ c, (sessions t p options chunks w).Reaches c ∧ c.Rests (fun _ => .ok ()) ∧
      ∃ place number, c.shared.disk.find (t.localPath q) = .ok (place, .file number) ∧
        (c.shared.disk.body number).data = (chunks 1).flatten := by
  obtain ⟨x, base, y, n, rfl, hplace⟩ := hfree
  let start : Overlap (Fin 2) w.disk base y n :=
    ⟨w, fun _ => False, .refl hplace.vacant, fun _ => rfl⟩
  let rest (i : Fin 2) : Steps World (Except Fault Unit) :=
    (t.makeNew (.ofNames (x ++ y ++ [n])) (options i) >>= fill (chunks i)).run
  have habsent : w.disk.find (t.localPath (.ofNames (x ++ y ++ [n]))) = .error noEntry := by
    rcases place_cases hplace start with hnone | ⟨number, hfile⟩
    · exact hnone
    · rw [File, hplace.vacant _ (by simp) (List.prefix_refl _)] at hfile
      cases hfile
  have hlook : ∀ i c, c.shared = w → c.parties i = (t.session p (options i) (chunks i)).run →
      Crowd.Move c ⟨Function.update c.parties i (rest i), w⟩ := by
    intro i c hc hi
    have hmove := Crowd.Move.party (hi.trans (t.session_look hphase hq (hnew i) (chunks i)))
    rw [hc] at hmove
    rw [seen_absent habsent] at hmove
    exact hmove
  have hrest : ∀ i (s : Overlap (Fin 2) w.disk base y n), s.passed i →
      (overlap (Fin 2) w.disk base y n).Gives i (fun _ s' => Filled i s' (chunks i).flatten)
        (t.makeNew (.ofNames (x ++ y ++ [n])) (options i) >>= fill (chunks i)) s := by
    intro i s hi
    exact (makeNew_keeps hplace (options i) hi).next fun stream s₁ h₁ => fill_keeps h₁ (hroom i)
  -- Both look before either makes the file.
  let begun := sessions t p options chunks w
  let looked : Crowd (Fin 2) World (Except Fault Unit) :=
    ⟨Function.update (Function.update begun.parties 0 (rest 0)) 1 (rest 1), w⟩
  have hlooked : begun.Reaches looked :=
    .tail (.single (hlook 0 begun rfl rfl))
      (hlook 1 ⟨Function.update begun.parties 0 (rest 0), w⟩ rfl rfl)
  -- The first one comes to its end.
  obtain ⟨_, s₀, ⟨_, rfl, -⟩, -, hfirst⟩ :=
    Protocol.Keeps.alone (c := looked) (hrest 0 (start.pass 0) (.inl rfl)) rfl
  -- The second one goes on as if it had found the world so.
  let again : Overlap (Fin 2) w.disk base y n :=
    ⟨s₀.world, fun j => j = 1, s₀.grown, fun h => absurd rfl (h 1)⟩
  obtain ⟨_, s₁, ⟨_, rfl, -, number, hfile, hdata⟩, hdoes, hsecond⟩ :=
    Protocol.Keeps.alone (c := ⟨Function.update looked.parties 0 (.done (.ok ())), s₀.world⟩)
      (hrest 1 again rfl) rfl
  have halone : Alone 1 s₁ := by
    clear hsecond hdata hfile
    induction hdoes with
    | refl => exact fun j hj hpassed => hj hpassed
    | tail _ hlast ih => exact fun j hj hpassed => ih j hj (hlast.2.1 j hj hpassed)
  refine ⟨_, hlooked.trans (hfirst.trans hsecond), ?_, _, number, place_file hplace hfile,
    hdata halone⟩
  exact Fin.forall_fin_two.2 ⟨rfl, rfl⟩

/-- Both get a stream, and the byte of the first one, which has closed its own, is gone. -/
theorem draft_overwritten : ∃ c, drafts.Reaches c ∧ c.Rests (fun _ => .ok ()) ∧
    ∃ place number, c.shared.disk.find "/mnt/f" = .ok (place, .file number) ∧
      (c.shared.disk.body number).data = [1] :=
  first_wiped rfl rfl draft_free (fun _ => rfl) own_short

end Wiped

end Mount

end VolumeFS
