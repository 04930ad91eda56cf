import VolumeFS.Proofs.Mount.Host
import VolumeFS.Proofs.Mount.Logical

/-!
# The life of a mount

A mount is started, used and closed by any sequence of requests, on a host that
answers commands as it likes. Starting is tried until it comes to an end well,
and then never again; closing is for good. Only while the volume is mounted does
a use of it reach the host at all.
-/

set_option autoImplicit false

namespace VolumeFS

namespace Mount

inductive Use where
  | isThere (p : Path)
  | mkdirs (p : Path) (permission : Option Permission)
  | list (p : Path)
  | status (p : Path)
  | loadOwnership (s : Status)
  | openFile (p : Path)
  | create (p : Path) (options : CreateOptions)
  | append (p : Path)
  | rename (source destination : Path)
  | delete (p : Path) (recursive : Bool)
  | blockLocations (s : Status) (start length : UInt64)
  | blockSize (p : Path)
  | replication (p : Path)
  | space
  | setOwner (p : Path) (owner group : Option String)
  | setPermission (p : Path) (permission : Permission)
  | backupAcl (file : String) (p : Path)
  | restoreAcl (backup : Shell.AclBackup)

inductive Request where
  | start
  | close
  | setWorkingDirectory (p : Path)
  | use (u : Use)

section Serving

variable {α : Type}

def forget (x : ExceptT Fault HostRun α) : ExceptT Fault HostRun Unit := do
  let _ ← x

def use (t : Mount HostRun) : Use → ExceptT Fault HostRun Unit
  | .isThere p => forget (t.isThere p)
  | .mkdirs p permission => t.mkdirs p permission
  | .list p => forget (t.list p)
  | .status p => forget (t.status p)
  | .loadOwnership s => forget (t.loadOwnership s)
  | .openFile p => forget (t.openFile p)
  | .create p options => forget (t.create p options)
  | .append p => forget (t.append p)
  | .rename source destination => t.rename source destination
  | .delete p recursive => t.delete p recursive
  | .blockLocations s start length => forget (t.blockLocations s start length)
  | .blockSize p => forget (t.blockSize p)
  | .replication p => forget (t.replication p)
  | .space => forget t.space
  | .setOwner p owner group => t.setOwner p owner group
  | .setPermission p permission => t.setPermission p permission
  | .backupAcl file p => forget (t.backupAcl file p)
  | .restoreAcl backup => t.restoreAcl backup

def serve (t : Mount HostRun) : Request → HostRun (Except Fault Unit × Mount HostRun)
  | .start => t.start
  | .close => return (.ok (), t.close)
  | .setWorkingDirectory p =>
    match t.setWorkingDirectory p with
    | .ok t => return (.ok (), t)
    | .error fault => return (.error fault, t)
  | .use u => do
    let answer ← (t.use u).run
    return (answer, t)

end Serving

structure Episode where
  before : Mount HostRun
  host : Host
  request : Request
  answer : Except Fault Unit
  after : Mount HostRun
  hostAfter : Host

def episode (t : Mount HostRun) (h : Host) (request : Request) : Episode where
  before := t
  host := h
  request
  answer := (t.serve request h).1.1
  after := (t.serve request h).1.2
  hostAfter := (t.serve request h).2

def episodes (t : Mount HostRun) (h : Host) : List Request → List Episode
  | [] => []
  | request :: requests =>
    let e := episode t h request
    e :: episodes e.after e.hostAfter requests

def GivenUp (s : Config.MountSettings) (before after : Host) : Prop :=
  ∃ deeds, after.deeds = deeds ++ before.deeds ∧
    Shell.GivenUp s.server s.volume s.directory deeds

def Reports (s : Config.MountSettings) (h : Host) : Prop :=
  ∃ outcome, (ending (Shell.ensureMounted s.server s.volume s.directory) h).1 = .ok outcome

/-- What a start does that finds nothing done: the commands it runs, and what comes of them. -/
structure Episode.Starts (e : Episode) : Prop where
  runs : ∀ s, e.before.config.mountSettings = .ok s → ∃ deeds result,
    Shell.Mounts s.server s.volume s.directory deeds result ∧
      e.hostAfter.deeds = deeds ++ e.host.deeds ∧ e.answer = result.map fun _ => ()
  succeeds : e.answer = .ok () ↔ ∃ s, e.before.config.mountSettings = .ok s ∧ Reports s e.host
  reports : ∀ s, e.before.config.mountSettings = .ok s →
    (Reports s e.host ↔ ¬ GivenUp s e.host e.hostAfter)
  unset : ∀ fault, e.before.config.mountSettings = .error fault →
    e.answer = .error fault ∧ e.hostAfter = e.host
  mounts : e.answer = .ok () → e.after = { e.before with phase := .mounted }
  fails : ∀ fault, e.answer = .error fault → e.after = e.before

structure Episode.Lawful (config : Config) (e : Episode) : Prop where
  config_eq : e.before.config = config
  observed : e.after.phase = .uninitialized ∨ e.after.phase = .mounted ∨ e.after.phase = .closed
  starts : e.before.phase = .uninitialized → e.request = .start → e.Starts
  again : e.before.phase = .mounted → e.request = .start →
    e.answer = .ok () ∧ e.after = e.before ∧ e.hostAfter = e.host
  refused : e.before.phase = .closed → e.request = .start →
    (∃ reason, e.answer = .error (.config reason)) ∧ e.hostAfter = e.host
  closed : e.before.phase = .closed ∨ e.request = .close → e.after.phase = .closed
  steady : e.request ≠ .start → e.request ≠ .close → e.after.phase = e.before.phase
  idle : e.before.phase ≠ .mounted → e.request ≠ .start → e.hostAfter = e.host

section Idle

variable {α β : Type}

def Idle (x : ExceptT Fault HostRun α) : Prop := ∀ h, (ending x h).2 = h

theorem idle_of_except (result : Except Fault α) :
    Idle (ExceptT.mk (pure result) : ExceptT Fault HostRun α) := fun _ => rfl

theorem idle_forget {x : ExceptT Fault HostRun α} (hx : Idle x) : Idle (forget x) :=
  ending_bind_keeps id hx fun _ _ => rfl

variable {t : Mount HostRun} (ht : t.phase ≠ .mounted)

include ht

theorem requireMounted_refuses (h : Host) :
    ∃ reason, ending t.requireMounted h = (.error (.config reason), h) := by
  refine ⟨s!"filesystem is not mounted ({t.phase.name})", ?_⟩
  unfold requireMounted
  rw [if_neg ht]
  rfl

theorem idle_required (f : Unit → ExceptT Fault HostRun α) : Idle (t.requireMounted >>= f) := by
  intro h
  obtain ⟨reason, hrefuse⟩ := requireMounted_refuses ht h
  rw [ending_bind_error hrefuse]

theorem idle_entered (p : Path) (f : Path → ExceptT Fault HostRun α) :
    Idle (t.enter p >>= f) := by
  intro h
  obtain ⟨reason, hrefuse⟩ := requireMounted_refuses ht h
  have henter : ending (t.enter p) h = (.error (.config reason), h) :=
    ending_bind_error hrefuse _
  rw [ending_bind_error henter]

theorem use_idle (u : Use) : Idle (t.use u) := by
  cases u with
  | isThere p => exact idle_forget (idle_entered ht p _)
  | mkdirs p permission => exact idle_entered ht p _
  | list p => exact idle_forget (idle_entered ht p _)
  | status p => exact idle_forget (idle_entered ht p _)
  | loadOwnership s =>
    refine idle_forget ?_
    unfold loadOwnership
    split
    · exact idle_of_except _
    · exact idle_entered ht _ _
  | openFile p => exact idle_forget (idle_entered ht p _)
  | create p options => exact idle_forget (idle_entered ht p _)
  | append p => exact idle_forget (idle_of_except _)
  | rename source destination => exact idle_entered ht source _
  | delete p recursive => exact idle_entered ht p _
  | blockLocations s start length => exact idle_forget (idle_required ht _)
  | blockSize p => exact idle_forget (idle_entered ht p _)
  | replication p => exact idle_forget (idle_entered ht p _)
  | space => exact idle_forget (idle_required ht _)
  | setOwner p owner group =>
    change Idle (t.setOwner p owner group)
    unfold setOwner
    by_cases hnone : (owner.isNone && group.isNone) = true
    · rw [if_pos hnone]
      exact fun _ => rfl
    · rw [if_neg hnone]
      exact idle_entered ht p _
  | setPermission p permission => exact idle_entered ht p _
  | backupAcl file p => exact idle_forget (idle_entered ht p _)
  | restoreAcl backup => exact idle_required ht _

end Idle

section Start

variable {t : Mount HostRun} {s : Config.MountSettings}

theorem start_mounted (ht : t.phase = .mounted) (h : Host) :
    t.serve .start h = ((.ok (), t), h) := by
  change t.start h = _
  unfold start
  rw [ht]
  rfl

theorem start_closed (ht : t.phase = .closed) (h : Host) :
    t.serve .start h = ((.error (.config "filesystem is closed"), t), h) := by
  change t.start h = _
  unfold start
  rw [ht]
  rfl

theorem reports_iff (s : Config.MountSettings) (h : Host) :
    Reports s h ↔
      ¬ GivenUp s h (ending (Shell.ensureMounted s.server s.volume s.directory) h).2 := by
  obtain ⟨deeds, result, h', hrun, hdeeds, hmounts⟩ :=
    Shell.ensureMounted_mounts s.server s.volume s.directory h
  unfold Reports GivenUp
  rw [hrun, hdeeds]
  dsimp only
  rw [hmounts.reports_iff]
  simp only [List.append_cancel_right_eq, exists_eq_left']

variable (ht : t.phase = .uninitialized)

include ht

theorem start_unset {fault : Fault} (hs : t.config.mountSettings = .error fault) (h : Host) :
    t.serve .start h = ((.error fault, t), h) := by
  change t.start h = _
  unfold start
  rw [ht, hs]
  rfl

theorem start_set (hs : t.config.mountSettings = .ok s) (h : Host) :
    t.serve .start h =
      match ending (Shell.ensureMounted s.server s.volume s.directory) h with
      | (.ok _, h') => ((.ok (), { t with phase := .mounted }), h')
      | (.error fault, h') => ((.error fault, t), h') := by
  have hsame : { t with phase := .uninitialized } = t := by rw [← ht]
  have hbind : ∀ (x : HostRun (Except Fault Shell.MountOutcome)) (f : _ → HostRun _),
      (x >>= f : HostRun (Except Fault Unit × Mount HostRun)) h = f (x h).1 (x h).2 :=
    fun _ _ => rfl
  change t.start h = _
  unfold start ending
  rw [ht, hs]
  dsimp only
  rw [hbind]
  rcases (Shell.ensureMounted (m := HostRun) s.server s.volume s.directory).run h with
    ⟨fault | found, h'⟩
  · change ((Except.error fault, { t with phase := .uninitialized }), h') = _
    rw [hsame]
  · rfl

theorem episode_starts (h : Host) : (episode t h .start).Starts := by
  unfold episode
  cases hs : t.config.mountSettings with
  | error fault =>
    rw [start_unset ht hs h]
    constructor
    case runs => simp [hs]
    case succeeds => simp [hs]
    case reports => simp [hs]
    case unset =>
      rintro fault' hfault
      rw [hs] at hfault
      cases hfault
      exact ⟨rfl, rfl⟩
    case mounts => exact nofun
    case fails => exact fun _ _ => rfl
  | ok s =>
    have hset : ∀ fault, t.config.mountSettings ≠ .error fault := by
      rw [hs]
      exact nofun
    have honly : ∀ s', t.config.mountSettings = .ok s' → s' = s := fun s' hs' =>
      Except.ok.inj (hs'.symm.trans hs)
    obtain ⟨deeds, result, h', hrun, hdeeds, hmounts⟩ :=
      Shell.ensureMounted_mounts s.server s.volume s.directory h
    have hreports := reports_iff s h
    rw [start_set ht hs h]
    rw [hrun] at hreports ⊢
    constructor
    case runs =>
      intro s' hs'
      obtain rfl := honly s' hs'
      refine ⟨deeds, result, hmounts, ?_⟩
      cases result <;> exact ⟨hdeeds, rfl⟩
    case succeeds =>
      have hanswer : (∃ s', t.config.mountSettings = .ok s' ∧ Reports s' h) ↔
          ∃ found, result = .ok found := by
        simp [hs, Reports, hrun]
      refine Iff.trans ?_ hanswer.symm
      cases result <;> simp
    case reports =>
      intro s' hs'
      obtain rfl := honly s' hs'
      cases result <;> exact hreports
    case unset => exact fun _ hfault => absurd hfault (hset _)
    case mounts => cases result <;> simp
    case fails => cases result <;> simp

end Start

section Run

variable {t : Mount HostRun}

/-- What is not a start keeps the phase, unless it closes the mount. -/
theorem episode_steady (h : Host) {request : Request} (hstart : request ≠ .start) :
    (episode t h request).after.config = t.config ∧
      (request ≠ .close → (episode t h request).after.phase = t.phase) ∧
      (t.phase ≠ .mounted → (episode t h request).hostAfter = h) := by
  cases request with
  | start => exact absurd rfl hstart
  | close => exact ⟨rfl, fun hne => absurd rfl hne, fun _ => rfl⟩
  | setWorkingDirectory p =>
    unfold episode serve
    dsimp only
    cases hmove : t.setWorkingDirectory p with
    | error fault => exact ⟨rfl, fun _ => rfl, fun _ => rfl⟩
    | ok t' =>
      obtain ⟨_, _, -, -, rfl⟩ := setWorkingDirectory_moved hmove
      exact ⟨rfl, fun _ => rfl, fun _ => rfl⟩
  | use u =>
    exact ⟨rfl, fun _ => rfl, fun hidle => use_idle hidle u h⟩

structure Observable (config : Config) (t : Mount HostRun) : Prop where
  config_eq : t.config = config
  not_mounting : t.phase ≠ .mounting

theorem observed {phase : Phase} (h : phase ≠ .mounting) :
    phase = .uninitialized ∨ phase = .mounted ∨ phase = .closed := by
  cases phase <;> simp_all

/-- A start keeps the mount or makes it mounted. -/
theorem start_after (ht : t.phase ≠ .mounting) (h : Host) :
    (episode t h .start).after = t ∨
      t.phase = .uninitialized ∧ (episode t h .start).after = { t with phase := .mounted } := by
  obtain hphase | hphase | hphase := observed ht
  · have hstarts := episode_starts hphase h
    cases hanswer : (episode t h .start).answer with
    | error fault => exact .inl (hstarts.fails fault hanswer)
    | ok => exact .inr ⟨hphase, hstarts.mounts hanswer⟩
  · exact .inl (congrArg (fun r => r.1.2) (start_mounted hphase h))
  · exact .inl (congrArg (fun r => r.1.2) (start_closed hphase h))

theorem episode_observable {config : Config} (ht : Observable config t) (h : Host)
    (request : Request) : Observable config (episode t h request).after := by
  by_cases hstart : request = .start
  · subst hstart
    obtain hafter | ⟨-, hafter⟩ := start_after ht.not_mounting h
    · rw [hafter]
      exact ht
    · rw [hafter]
      exact ⟨ht.config_eq, nofun⟩
  · obtain ⟨hconfig, hphase, -⟩ := episode_steady (t := t) h hstart
    refine ⟨hconfig.trans ht.config_eq, ?_⟩
    by_cases hclose : request = .close
    · subst hclose
      exact nofun
    · rw [hphase hclose]
      exact ht.not_mounting

theorem episode_lawful {config : Config} (ht : Observable config t) (h : Host) (request : Request) :
    (episode t h request).Lawful config where
  config_eq := ht.config_eq
  observed := observed (episode_observable ht h request).not_mounting
  starts hphase hstart := by
    obtain rfl : request = .start := hstart
    exact episode_starts hphase h
  again hphase hstart := by
    obtain rfl : request = .start := hstart
    unfold episode
    rw [start_mounted (t := t) hphase h]
    exact ⟨rfl, rfl, rfl⟩
  refused hphase hstart := by
    obtain rfl : request = .start := hstart
    unfold episode
    rw [start_closed (t := t) hphase h]
    exact ⟨⟨_, rfl⟩, rfl⟩
  closed hclosed := by
    by_cases hclose : request = .close
    · subst hclose
      rfl
    obtain hphase := hclosed.resolve_right hclose
    by_cases hstart : request = .start
    · subst hstart
      unfold episode
      rw [start_closed (t := t) hphase h]
      exact hphase
    · rw [(episode_steady h hstart).2.1 hclose]
      exact hphase
  steady hstart hclose := (episode_steady h hstart).2.1 hclose
  idle hphase hstart := (episode_steady h hstart).2.2 hphase

theorem episodes_lawful {config : Config} (ht : Observable config t) (h : Host)
    (requests : List Request) : ∀ e ∈ episodes t h requests, e.Lawful config := by
  induction requests generalizing t h with
  | nil =>
    intro e he
    exact absurd he List.not_mem_nil
  | cons request requests ih =>
    intro e he
    obtain rfl | he := List.mem_cons.1 he
    · exact episode_lawful ht h request
    · exact ih (episode_observable ht h request) _ e he

def Episode.Brings (e : Episode) : Bool :=
  e.before.phase ≠ .mounted ∧ e.after.phase = .mounted

theorem mounted_after (ht : t.phase = .mounted) (h : Host) (request : Request) :
    (episode t h request).after.phase = .mounted ∨ (episode t h request).after.phase = .closed := by
  have hlawful := episode_lawful ⟨rfl, by rw [ht]; decide⟩ h request (t := t)
  by_cases hstart : request = .start
  · rw [(hlawful.again ht hstart).2.1]
    exact .inl ht
  · by_cases hclose : request = .close
    · exact .inr (hlawful.closed (.inr hclose))
    · exact .inl ((hlawful.steady hstart hclose).trans ht)

/-- A mount that was mounted is not mounted again. -/
theorem brings_never (ht : t.phase = .mounted ∨ t.phase = .closed) (h : Host)
    (requests : List Request) : (episodes t h requests).countP Episode.Brings = 0 := by
  induction requests generalizing t h with
  | nil => rfl
  | cons request requests ih =>
    have hnot : ¬ (episode t h request).Brings = true ∧
        ((episode t h request).after.phase = .mounted ∨
          (episode t h request).after.phase = .closed) := by
      obtain hmounted | hclosed := ht
      · exact ⟨fun hbrings => (of_decide_eq_true hbrings).1 hmounted,
          mounted_after hmounted h request⟩
      · have hlawful := episode_lawful ⟨rfl, by rw [hclosed]; decide⟩ h request (t := t)
        have hafter := hlawful.closed (.inl hclosed)
        refine ⟨fun hbrings => ?_, .inr hafter⟩
        have hphase := (of_decide_eq_true hbrings).2
        rw [hafter] at hphase
        cases hphase
    rw [episodes, List.countP_cons, if_neg hnot.1]
    exact ih hnot.2 _

theorem brings_once {config : Config} (ht : Observable config t) (h : Host)
    (requests : List Request) : (episodes t h requests).countP Episode.Brings ≤ 1 := by
  induction requests generalizing t h with
  | nil => exact Nat.zero_le 1
  | cons request requests ih =>
    have hobservable := episode_observable ht h request
    rw [episodes, List.countP_cons]
    -- Once it is mounted none of the other requests counts, and until then the first one does not.
    by_cases hafter : (episode t h request).after.phase = .mounted
    · rw [brings_never (.inl hafter)]
      split <;> decide
    · have hnot : ¬ (episode t h request).Brings = true := by
        simp [Episode.Brings, hafter]
      rw [if_neg hnot]
      exact ih hobservable _

end Run

/-- Whatever the host answers and whatever is asked for: each request does what the life of a mount
allows, and at most one brings it to where it is mounted. -/
theorem life_of_mount (config : Config) (hostname : String) (oracle : Oracle HostRun) (h : Host)
    (requests : List Request) :
    (∀ e ∈ episodes (.ofConfig config hostname oracle) h requests, e.Lawful config) ∧
      (episodes (.ofConfig config hostname oracle) h requests).countP Episode.Brings ≤ 1 := by
  have hstart : Observable config (.ofConfig config hostname oracle) := ⟨rfl, nofun⟩
  exact ⟨episodes_lawful hstart h requests, brings_once hstart h requests⟩

def reluctant : Host where
  disk := .ofDirectories [["mnt"]]
  runner deeds d _ _ := (.ok ⟨some (if deeds.length < 4 then 1 else 0), "", ""⟩, d)
  deeds := []

/-- The second start mounts the volume, and no later request runs a command. -/
example : (episodes (.ofConfig ⟨.fuse, some "v", some "s", some "/mnt", false, none, none⟩ "h"
      (.broken "")) reluctant
      [.start, .use (.isThere .root), .start, .start, .close, .start]).map
      (fun e => (e.after.phase, e.hostAfter.deeds.length)) =
    [(.uninitialized, 3), (.uninitialized, 3), (.mounted, 5), (.mounted, 5), (.closed, 5),
      (.closed, 5)] := by
  decide

end Mount

end VolumeFS
