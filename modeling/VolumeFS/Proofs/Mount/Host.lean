import VolumeFS.Mount
import VolumeFS.Proofs.Run

/-!
# Hosts that answer as they like

A host has a disk, and somebody on it runs the commands. The runner may answer
each command in any way and change the disk, and what it does may depend on all
that was done before. All that is done is noted: each command with its answer,
and each access to the disk.
-/

set_option autoImplicit false

namespace VolumeFS

inductive Deed where
  | command (program : String) (args : List String) (answer : Except IoError CommandOutput)
  /-- The disk was looked at or changed. -/
  | access

structure Host where
  disk : Disk
  runner : List Deed → Disk → String → List String → Except IoError CommandOutput × Disk
  /-- What was done, latest first. -/
  deeds : List Deed

abbrev HostRun := StateM Host

namespace Host

variable {α : Type}

def access (f : Disk → α × Disk) : HostRun α :=
  fun h => ((f h.disk).1, { h with disk := (f h.disk).2, deeds := .access :: h.deeds })

def ask (h : Host) (program : String) (args : List String) :
    Except IoError CommandOutput × Host :=
  let (answer, disk) := h.runner h.deeds h.disk program args
  (answer, { h with disk, deeds := .command program args answer :: h.deeds })

end Host

instance : MonadStateOf Disk HostRun where
  get := Host.access fun d => (d, d)
  set d := Host.access fun _ => ((), d)
  modifyGet := Host.access

instance : Commands HostRun where
  run program args := fun h => h.ask program args

instance : Clock HostRun where
  pause _ := pure ()

def Succeeded (answer : Except IoError CommandOutput) : Prop :=
  ∃ output, answer = .ok output ∧ output.code = some 0

namespace Shell

theorem invoke_cases (program : String) (args : List String) (h : Host) :
    ∃ answer h', h'.deeds = .command program args answer :: h.deeds ∧
      ((∃ output, answer = .ok output ∧ ending (invoke program args) h = (.ok output, h')) ∨
        ∃ e reason, answer = .error e ∧
          ending (invoke program args) h = (.error (.io reason), h')) := by
  have hrun : ending (liftM (Commands.run program args : HostRun _) :
      ExceptT Fault HostRun (Except IoError CommandOutput)) h =
        (.ok (h.ask program args).1, (h.ask program args).2) := rfl
  refine ⟨(h.ask program args).1, (h.ask program args).2, rfl, ?_⟩
  unfold invoke
  rw [ending_bind_ok hrun]
  cases (h.ask program args).1 with
  | ok output => exact .inl ⟨output, rfl, rfl⟩
  | error e => exact .inr ⟨e, _, rfl, rfl⟩

/-- A command of which no failure is tolerated. -/
theorem exec_cases (program : String) (args : List String) (h : Host) :
    ∃ answer h', h'.deeds = .command program args answer :: h.deeds ∧
      ((∃ text, Succeeded answer ∧ ending (exec program args []) h = (.ok text, h')) ∨
        (∃ e reason, answer = .error e ∧
          ending (exec program args []) h = (.error (.io reason), h')) ∨
        ∃ output command code text, answer = .ok output ∧ output.code ≠ some 0 ∧
          ending (exec program args []) h = (.error (.process command code text), h')) := by
  obtain ⟨answer, h', hdeeds, ⟨output, rfl, hinvoke⟩ | ⟨e, reason, rfl, hinvoke⟩⟩ :=
    invoke_cases program args h
  · refine ⟨_, h', hdeeds, ?_⟩
    unfold exec
    rw [ending_bind_ok hinvoke]
    by_cases hcode : output.code = some 0
    · rw [if_pos hcode]
      exact .inl ⟨_, ⟨output, rfl, hcode⟩, rfl⟩
    · have hnone : ¬ output.code.any ([] : List Int).contains = true := by
        cases output.code <;> simp
      rw [if_neg hcode, if_neg hnone]
      exact .inr (.inr ⟨output, _, _, _, rfl, hcode, rfl⟩)
  · refine ⟨_, h', hdeeds, .inr (.inl ⟨e, reason, rfl, ?_⟩)⟩
    unfold exec
    exact ending_bind_error hinvoke _

def check (directory : String) (answer : Except IoError CommandOutput) : Deed :=
  .command "mountpoint" ["-q", directory] answer

def mounting (server volume directory : String) (answer : Except IoError CommandOutput) : Deed :=
  .command "mount" ["-t", "glusterfs", s!"{server}:/{volume}", directory] answer

theorem check_injective {directory : String} {answer answer' : Except IoError CommandOutput}
    (h : check directory answer = check directory answer') : answer = answer' :=
  (Deed.command.inj h).2.2

theorem isMounted_cases (directory : String) (h : Host) :
    ∃ answer result h', ending (attempt (isMounted directory)) h = (.ok result, h') ∧
      h'.deeds = check directory answer :: h.deeds ∧ (result = .ok true ↔ Succeeded answer) := by
  obtain ⟨answer, h', hdeeds, ⟨output, rfl, hinvoke⟩ | ⟨e, reason, rfl, hinvoke⟩⟩ :=
    invoke_cases "mountpoint" ["-q", directory] h
  · refine ⟨_, .ok (output.code == some 0), h', ?_, hdeeds, ?_⟩
    · rw [ending_attempt, isMounted, ending_bind_ok hinvoke]
      rfl
    · simp [Succeeded]
  · refine ⟨_, .error (.io reason), h', ?_, hdeeds, ?_⟩
    · rw [ending_attempt, isMounted, ending_bind_error hinvoke]
    · simp [Succeeded]

/-- How mounting goes, with the deeds of it, latest first. -/
inductive Mounts (server volume directory : String) :
    List Deed → Except Fault MountOutcome → Prop
  | found {first} (hfirst : Succeeded first) :
      Mounts server volume directory [check directory first] (.ok .alreadyMounted)
  | done {first middle} (hfirst : ¬ Succeeded first) (hmiddle : Succeeded middle) :
      Mounts server volume directory
        [mounting server volume directory middle, check directory first] (.ok .mounted)
  | unavailable {first e} (hfirst : ¬ Succeeded first) :
      Mounts server volume directory
        [mounting server volume directory (.error e), check directory first] (.ok .spawnFailed)
  | concurrently {first output last} (hfirst : ¬ Succeeded first)
      (hcode : output.code ≠ some 0) (hlast : Succeeded last) :
      Mounts server volume directory
        [check directory last, mounting server volume directory (.ok output), check directory first]
        (.ok .mountedConcurrently)
  | givenUp {first output last reason} (hfirst : ¬ Succeeded first)
      (hcode : output.code ≠ some 0) (hlast : ¬ Succeeded last) :
      Mounts server volume directory
        [check directory last, mounting server volume directory (.ok output), check directory first]
        (.error (.config reason))

/-- The mount command ran and did not end well, and after it there was still no mount point. -/
def GivenUp (server volume directory : String) (deeds : List Deed) : Prop :=
  ∃ first output last,
    deeds = [check directory last, mounting server volume directory (.ok output),
      check directory first] ∧
    output.code ≠ some 0 ∧ ¬ Succeeded last

theorem GivenUp.length_eq {server volume directory : String} {deeds : List Deed}
    (h : GivenUp server volume directory deeds) : deeds.length = 3 := by
  obtain ⟨_, _, _, rfl, -⟩ := h
  rfl

/-- Only a mount that was given up is not reported as a success. -/
theorem Mounts.reports_iff {server volume directory : String} {deeds : List Deed}
    {result : Except Fault MountOutcome} (h : Mounts server volume directory deeds result) :
    (∃ found, result = .ok found) ↔ ¬ GivenUp server volume directory deeds := by
  cases h with
  | found hfirst =>
    exact ⟨fun _ hgiven => absurd hgiven.length_eq (by simp), fun _ => ⟨_, rfl⟩⟩
  | done hfirst hmiddle =>
    exact ⟨fun _ hgiven => absurd hgiven.length_eq (by simp), fun _ => ⟨_, rfl⟩⟩
  | unavailable hfirst =>
    exact ⟨fun _ hgiven => absurd hgiven.length_eq (by simp), fun _ => ⟨_, rfl⟩⟩
  | concurrently hfirst hcode hlast =>
    refine ⟨fun _ => ?_, fun _ => ⟨_, rfl⟩⟩
    rintro ⟨_, _, last, hdeeds, -, hnot⟩
    obtain rfl := check_injective (List.cons.inj hdeeds).1
    exact hnot hlast
  | givenUp hfirst hcode hlast =>
    exact ⟨nofun, fun hnot => absurd ⟨_, _, _, rfl, hcode, hlast⟩ hnot⟩

theorem ensureMounted_mounts (server volume directory : String) (h : Host) :
    ∃ deeds result h', ending (ensureMounted server volume directory) h = (result, h') ∧
      h'.deeds = deeds ++ h.deeds ∧ Mounts server volume directory deeds result := by
  obtain ⟨first, found, h₁, hcheck, hdeeds₁, hfound⟩ := isMounted_cases directory h
  unfold ensureMounted
  rw [ending_bind_ok hcheck]
  by_cases hfirst : Succeeded first
  · rw [hfound.2 hfirst]
    exact ⟨_, _, h₁, rfl, hdeeds₁, .found hfirst⟩
  obtain ⟨middle, h₂, hdeeds₂, hcases⟩ :=
    exec_cases "mount" ["-t", "glusterfs", s!"{server}:/{volume}", directory] h₁
  split
  · exact absurd (hfound.1 rfl) hfirst
  dsimp only
  rw [ending_bind_ok (ending_attempt _ _)]
  obtain ⟨text, hmiddle, hexec⟩ | ⟨e, reason, rfl, hexec⟩ |
    ⟨output, command, code, text, rfl, hcode, hexec⟩ := hcases
  · rw [hexec]
    exact ⟨_, _, h₂, rfl, by rw [hdeeds₂, hdeeds₁]; rfl, .done hfirst hmiddle⟩
  · rw [hexec]
    exact ⟨_, _, h₂, rfl, by rw [hdeeds₂, hdeeds₁]; rfl, .unavailable hfirst⟩
  · obtain ⟨last, again, h₃, hrecheck, hdeeds₃, hagain⟩ := isMounted_cases directory h₂
    rw [hexec]
    dsimp only
    rw [ending_bind_ok hrecheck]
    by_cases hlast : Succeeded last
    · rw [hagain.2 hlast]
      exact ⟨_, _, h₃, rfl, by rw [hdeeds₃, hdeeds₂, hdeeds₁]; rfl,
        .concurrently hfirst hcode hlast⟩
    · split
      · exact absurd (hagain.1 rfl) hlast
      · exact ⟨_, _, h₃, rfl, by rw [hdeeds₃, hdeeds₂, hdeeds₁]; rfl,
          .givenUp hfirst hcode hlast⟩

end Shell

end VolumeFS
