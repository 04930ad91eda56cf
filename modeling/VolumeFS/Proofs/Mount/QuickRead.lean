import VolumeFS.Proofs.Mount.Advice
import VolumeFS.Proofs.Mount.Tree
import VolumeFS.Proofs.Placement.Replica

/-!
# Files read from a brick

A mount that reads quickly asks its oracle for the bricks of a file before it
opens it. If there is no answer, if no brick file has every hint on this host,
or if that file cannot be opened, then it opens the mounted file, as it does
without an oracle.
-/

set_option autoImplicit false

namespace VolumeFS

open Disk

namespace Mount

variable {t : Mount Run} {p q : Path} {w : World}

def stream (t : Mount Run) (q : Path) (source : StreamSource) (handle : Handle) :
    InputStream (ReadBuffer Reader) :=
  .start (.ofCapacity t.config.tunedBufferSize ⟨handle⟩) source (t.qualify q)

def opening (t : Mount Run) (q : Path) (length : UInt64) :
    ExceptT Fault Run (InputStream (ReadBuffer Reader)) := do
  match ← openBrick (← t.quickSource q length) with
  | some reader => return t.stream q .localReplica reader.handle
  | none =>
    let reader ← naming q.text (DiskAccess.openReader (t.localPath q))
    return t.stream q .mount reader.handle

def brick? (t : Mount Run) (q : Path) (length : UInt64) (w : World) : Option String :=
  if t.config.quickRead then
    ((outcome (t.oracle.quickRead (t.localPath q) 0 length) w).1.toOption.getD none).bind
      (Hint.localReplica? t.hostname)
  else none

theorem brick?_eq_some {length : UInt64} {brick : String} (h : t.brick? q length w = some brick) :
    t.config.quickRead = true ∧ ∃ hints,
      (outcome (t.oracle.quickRead (t.localPath q) 0 length) w).1 = .ok (some hints) ∧
      Hint.localReplica? t.hostname hints = some brick := by
  unfold brick? at h
  split_ifs at h with hquick
  obtain ⟨hints, hanswer, hlocal⟩ := Option.bind_eq_some_iff.1 h
  refine ⟨hquick, hints, ?_, hlocal⟩
  cases hasked : (outcome (t.oracle.quickRead (t.localPath q) 0 length) w).1 with
  | error fault =>
    rw [hasked] at hanswer
    cases hanswer
  | ok answer =>
    rw [hasked] at hanswer
    exact congrArg Except.ok hanswer

def opened (t : Mount Run) (q : Path) (length : UInt64) (w : World) :
    Except Fault (InputStream (ReadBuffer Reader)) :=
  match (t.brick? q length w).bind fun brick => (w.disk.openReader brick).toOption with
  | some handle => .ok (t.stream q .localReplica handle)
  | none =>
    ((w.disk.openReader (t.localPath q)).mapError (Fault.ofIo · q.text)).map (t.stream q .mount)

theorem quickSource_outcome (hspares : t.oracle.OnlyAnswers) (q : Path) (length : UInt64)
    (w : World) :
    ∃ w', outcome (t.quickSource q length) w = (.ok (t.brick? q length w), w') ∧
      w'.disk = w.disk := by
  unfold quickSource brick?
  cases t.config.quickRead with
  | false => exact ⟨w, rfl, rfl⟩
  | true => exact ⟨_, outcome_bind_ok (outcome_orElseOf _ _ _) _, hspares _ _ _ w⟩

theorem openReader_outcome (text path : String) (w : World) :
    outcome (naming text (DiskAccess.openReader path)) w =
      (((w.disk.openReader path).mapError (Fault.ofIo · text)).map Reader.mk, w) := by
  change outcome (naming text (look fun d => (d.openReader path).map Reader.mk)) w = _
  rw [outcome_look]
  cases w.disk.openReader path <;> rfl

theorem openBrick_outcome (brick : Option String) (w : World) :
    outcome (openBrick brick) w =
      (.ok ((brick.bind fun b => (w.disk.openReader b).toOption).map Reader.mk), w) := by
  cases brick with
  | none => rfl
  | some b =>
    unfold openBrick
    rw [outcome_orElseOf, map_eq_pure_bind, outcome_bind, openReader_outcome]
    cases h : w.disk.openReader b with
    | error e => simp [h, Except.mapError, Except.map, Except.toOption]
    | ok handle => simp [h, Except.mapError, Except.map, Except.toOption]

theorem opening_outcome (hspares : t.oracle.OnlyAnswers) (q : Path) (length : UInt64) (w : World) :
    (outcome (t.opening q length) w).1 = t.opened q length w := by
  obtain ⟨w', hsource, hdisk⟩ := quickSource_outcome hspares q length w
  unfold opening opened
  rw [outcome_bind_ok hsource, outcome_bind_ok (openBrick_outcome _ w'), hdisk]
  cases (t.brick? q length w).bind fun brick => (w.disk.openReader brick).toOption with
  | some handle => rfl
  | none =>
    -- The mounted file is opened on the disk that the oracle has left behind.
    dsimp only [Option.map_none]
    rw [outcome_bind, openReader_outcome, hdisk]
    cases w.disk.openReader (t.localPath q) <;> rfl

/-- Where the oracle's answer is of no use, the mounted file is opened. -/
theorem opened_unharmed {β : Type} {asked : Except Fault β} (length : UInt64)
    (hasked : ∀ fault, asked = .error fault → t.brick? q length w = none) :
    Unharmed asked (t.unadvised.opened q length w) (t.opened q length w) := by
  have hunadvised : t.unadvised.brick? q length w = none := by
    unfold brick?
    split <;> rfl
  unfold opened
  rw [hunadvised]
  cases hbrick : (t.brick? q length w).bind fun brick => (w.disk.openReader brick).toOption with
  | none => exact .same _
  | some handle =>
    refine .found fun fault hfault => ?_
    rw [hasked fault hfault] at hbrick
    cases hbrick

def bricksAsked (t : Mount Run) (file : String) : ExceptT Fault Run (Option (List Hint)) := do
  let found ← naming file (DiskAccess.metadata file)
  t.oracle.quickRead file 0 found.length

theorem openFile_unharmed (hspares : t.oracle.OnlyAnswers) (p : Path) (w : World) :
    Unharmed (t.answer p t.bricksAsked w)
      (outcome (t.unadvised.openFile p) w).1 (outcome (t.openFile p) w).1 := by
  refine unharmed_entered (t := t) fun q found hq hfound => ?_
  dsimp only
  split_ifs with hdir
  · exact .same _
  · show Unharmed _ (outcome (t.unadvised.opening q found.length) w).1
      (outcome (t.opening q found.length) w).1
    rw [opening_outcome hspares, opening_outcome (Oracle.ofTable_onlyAnswers _), answer_seen hq]
    refine opened_unharmed found.length fun fault hfault => ?_
    have hasked : outcome (t.bricksAsked (t.localPath q)) w =
        outcome (t.oracle.quickRead (t.localPath q) 0 found.length) w := by
      have hmetadata := naming_metadata (t.localPath q) (t.localPath q) w
      rw [hfound] at hmetadata
      exact outcome_bind_ok hmetadata _
    rw [hasked] at hfault
    unfold brick?
    rw [hfault]
    split <;> rfl

inductive Reads (t : Mount Run) (q : Path) (w : World) : InputStream (ReadBuffer Reader) → Prop
  /-- A brick file that every hint has on this host. -/
  | replica {found : Metadata} {hints : List Hint} {brick : String} {handle : Handle}
      (quick : t.config.quickRead = true)
      (length : w.disk.metadata (t.localPath q) = .ok found)
      (answer : (outcome (t.oracle.quickRead (t.localPath q) 0 found.length) w).1 =
        .ok (some hints))
      (nonempty : hints ≠ [])
      (each : ∀ h ∈ hints, ∃ b ∈ h.replicas,
        b.path = brick ∧ Host.isSame b.host t.hostname = true)
      (opens : w.disk.openReader brick = .ok handle) :
      Reads t q w (t.stream q .localReplica handle)
  /-- The mounted file. -/
  | mounted {handle : Handle} (opens : w.disk.openReader (t.localPath q) = .ok handle) :
      Reads t q w (t.stream q .mount handle)

theorem opened_reads {found : Metadata} (hfound : w.disk.metadata (t.localPath q) = .ok found)
    {s : InputStream (ReadBuffer Reader)} (h : t.opened q found.length w = .ok s) :
    t.Reads q w s := by
  unfold opened at h
  cases hbrick : (t.brick? q found.length w).bind
      fun brick => (w.disk.openReader brick).toOption with
  | none =>
    rw [hbrick] at h
    cases hopen : w.disk.openReader (t.localPath q) with
    | error e =>
      rw [hopen] at h
      cases h
    | ok handle =>
      rw [hopen] at h
      cases h
      exact .mounted hopen
  | some handle =>
    rw [hbrick] at h
    cases h
    obtain ⟨brick, hchosen, hopen⟩ := Option.bind_eq_some_iff.1 hbrick
    obtain ⟨hquick, hints, hanswer, hlocal⟩ := brick?_eq_some hchosen
    obtain ⟨hne, hfirst⟩ := Hint.localReplica?_eq_some.1 hlocal
    cases hreader : w.disk.openReader brick with
    | error e =>
      rw [hreader] at hopen
      cases hopen
    | ok opened =>
      rw [hreader] at hopen
      cases hopen
      exact .replica hquick hfound hanswer hne (fun h hh => (hfirst h hh).present) hreader

theorem openFile_opened (hspares : t.oracle.OnlyAnswers) (hphase : t.phase = .mounted)
    (hq : t.logical p = .ok q) {found : Metadata}
    (hfound : w.disk.metadata (t.localPath q) = .ok found) (hfile : found.isDirectory = false) :
    (outcome (t.openFile p) w).1 = t.opened q found.length w := by
  have hmetadata : outcome (t.metadata q) w = (.ok found, w) := by
    unfold metadata
    rw [naming_metadata, hfound]
    rfl
  rw [← opening_outcome hspares]
  unfold openFile
  rw [outcome_bind_ok (enter_seen hphase hq w), outcome_bind_ok hmetadata]
  dsimp only
  rw [hfile]
  rfl

theorem openFile_reads (hspares : t.oracle.OnlyAnswers) {s : InputStream (ReadBuffer Reader)}
    (h : (outcome (t.openFile p) w).1 = .ok s) : ∃ q, t.logical p = .ok q ∧ t.Reads q w s := by
  obtain ⟨q, found, hq, hfound, hopened⟩ := entered_ok h
  dsimp only at hopened
  split_ifs at hopened with hdir
  · cases hopened
  · change (outcome (t.opening q found.length) w).1 = _ at hopened
    rw [opening_outcome hspares] at hopened
    exact ⟨q, hq, opened_reads hfound hopened⟩

/-- Whatever the oracle answers and whenever it fails, nothing fails on its account, and where it
fails it might as well know nothing. What is opened is a brick file only where every hint has that
file on this host, and else the mounted file. -/
theorem advice_harmless (t : Mount Run) (w : World) :
    (∀ p, Unharmed (t.answer p t.oracle.replication w)
        (outcome (t.unadvised.replication p) w).1 (outcome (t.replication p) w).1 ∧
      ∀ copies, (outcome (t.unadvised.replication p) w).1 = .ok copies → copies = 1) ∧
    (∀ p, Unharmed (t.answer p t.oracle.blockSize w)
        (outcome (t.unadvised.blockSize p) w).1 (outcome (t.blockSize p) w).1 ∧
      ∀ size, (outcome (t.unadvised.blockSize p) w).1 = .ok size → ∃ q found,
        t.logical p = .ok q ∧ w.disk.metadata (t.localPath q) = .ok found ∧
        size = found.length) ∧
    (∀ s start length,
      Unharmed (t.answer s.path.unqualified (t.locationsAsked s start length) w)
        (outcome (t.unadvised.blockLocations s start length) w).1
        (outcome (t.blockLocations s start length) w).1 ∧
      ∀ locations, (outcome (t.unadvised.blockLocations s start length) w).1 = .ok locations →
        locations = []) ∧
    (t.oracle.OnlyAnswers → ∀ p,
      Unharmed (t.answer p t.bricksAsked w)
        (outcome (t.unadvised.openFile p) w).1 (outcome (t.openFile p) w).1 ∧
      ∀ s, (outcome (t.openFile p) w).1 = .ok s → ∃ q, t.logical p = .ok q ∧ t.Reads q w s) :=
  ⟨fun p => ⟨replication_unharmed t p w, fun _ h => unadvised_replication t p (Prod.ext h rfl)⟩,
    fun p => ⟨blockSize_unharmed t p w, fun _ => unadvised_blockSize⟩,
    fun s start length => ⟨blockLocations_unharmed t s start length w,
      fun _ h => unadvised_blockLocations t s start length (Prod.ext h rfl)⟩,
    fun hspares p => ⟨openFile_unharmed hspares p w, fun _ => openFile_reads hspares⟩⟩

def stocked : World :=
  .ofDisk {
    nodes := [([], .directory 0o755), (["mnt"], .directory 0o755), (["mnt", "f"], .file 0),
      (["b"], .directory 0o755), (["b", "f"], .file 1)]
    bodies := [⟨[7], 0o644⟩, ⟨[7], 0o644⟩]
    current := []
    capacity := 0 }

def hinted : Mount Run :=
  { anchored "/mnt" with
    config := { Config.ofBackend .fuse with quickRead := true }
    phase := .mounted
    oracle := .ofTable ⟨[], [], [], [("/mnt/f", [⟨0, 1, [⟨"h.lan", "/b", "/b/f"⟩]⟩])]⟩ }

theorem stocked_walks : stocked.disk.walk linkLimit [] ["", "mnt", "f"] =
      .ok ⟨["mnt", "f"], some (.file 0)⟩ ∧
    stocked.disk.walk linkLimit [] ["", "b", "f"] = .ok ⟨["b", "f"], some (.file 1)⟩ := by
  have hroot : stocked.disk.node? [] = some (.directory 0o755) := rfl
  have hmnt : stocked.disk.node? ["mnt"] = some (.directory 0o755) := rfl
  have hmounted : stocked.disk.node? ["mnt", "f"] = some (.file 0) := rfl
  have hb : stocked.disk.node? ["b"] = some (.directory 0o755) := rfl
  have hbrick : stocked.disk.node? ["b", "f"] = some (.file 1) := rfl
  constructor
  · simp [walk, hroot, hmnt, hmounted, show ¬ nameLimit < "mnt".utf8ByteSize by decide,
      show ¬ nameLimit < "f".utf8ByteSize by decide]
  · simp [walk, hroot, hb, hbrick, show ¬ nameLimit < "b".utf8ByteSize by decide,
      show ¬ nameLimit < "f".utf8ByteSize by decide]

theorem stocked_mounted : stocked.disk.metadata "/mnt/f" = .ok ⟨false, 1⟩ :=
  bind_eq_ok.2 ⟨_, find_walked.2 ⟨[], rfl, stocked_walks.1⟩, rfl⟩

theorem stocked_brick : stocked.disk.openReader "/b/f" = .ok ⟨some 1, 0⟩ :=
  bind_eq_ok.2 ⟨_, find_walked.2 ⟨[], rfl, stocked_walks.2⟩, rfl⟩

theorem hinted_reads : ∃ s, (outcome (hinted.openFile (.ofNames ["f"])) stocked).1 = .ok s ∧
    s = hinted.stream (.ofNames ["f"]) .localReplica ⟨some 1, 0⟩ ∧
    hinted.Reads (.ofNames ["f"]) stocked s := by
  obtain ⟨-, -, -, hopen⟩ := advice_harmless hinted stocked
  obtain ⟨-, hreads⟩ := hopen (Oracle.ofTable_onlyAnswers _) (.ofNames ["f"])
  have hseen : hinted.logical (.ofNames ["f"]) = .ok (.ofNames ["f"]) := rfl
  have hfile : hinted.localPath (.ofNames ["f"]) = "/mnt/f" := rfl
  have hfound : stocked.disk.metadata (hinted.localPath (.ofNames ["f"])) = .ok ⟨false, 1⟩ := by
    rw [hfile, stocked_mounted]
  have hbrick : hinted.brick? (.ofNames ["f"]) 1 stocked = some "/b/f" := by decide +kernel
  have hrun : (outcome (hinted.openFile (.ofNames ["f"])) stocked).1 =
      .ok (hinted.stream (.ofNames ["f"]) .localReplica ⟨some 1, 0⟩) := by
    rw [openFile_opened (Oracle.ofTable_onlyAnswers _) rfl hseen hfound rfl]
    unfold opened
    dsimp only
    rw [hbrick, Option.bind_some, stocked_brick]
    rfl
  obtain ⟨q, hq, hs⟩ := hreads _ hrun
  obtain rfl : Path.ofNames ["f"] = q := Except.ok.inj (hseen.symm.trans hq)
  exact ⟨_, hrun, rfl, hs⟩

end Mount

end VolumeFS
