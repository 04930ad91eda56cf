import VolumeFS.Proofs.Mount.Revisit

/-!
# Mounts that are badly advised

A mount asks its oracle where the bytes of a file lie and does without an
answer where there is none. So whatever the oracle says, what works for a mount
that is told nothing works for this one too, and no fault of the oracle is ever
handed on. Here this is said of all questions but the one that decides which
file is opened.
-/

set_option autoImplicit false

namespace VolumeFS

open Disk

section Sparing

variable {α β : Type}

def SparesDisk (x : ExceptT Fault Run α) : Prop :=
  ∀ w, (outcome x w).2.disk = w.disk

theorem sparesDisk_pure (a : α) : SparesDisk (pure a) := fun _ => rfl

theorem sparesDisk_throw (fault : Fault) : SparesDisk (throw fault : ExceptT Fault Run α) :=
  fun _ => rfl

theorem sparesDisk_bind {x : ExceptT Fault Run α} {f : α → ExceptT Fault Run β}
    (hx : SparesDisk x) (hf : ∀ a, SparesDisk (f a)) : SparesDisk (x >>= f) :=
  outcome_bind_keeps World.disk hx hf

theorem Shell.pathinfo_sparesDisk (path : String) :
    SparesDisk (pathinfo path : ExceptT Fault Run (Option String)) := by
  have hinvoke (program : String) (args : List String) :
      SparesDisk (invoke program args : ExceptT Fault Run CommandOutput) := by
    refine sparesDisk_bind (fun _ => rfl) fun ended => ?_
    cases ended with
    | error e => exact sparesDisk_throw _
    | ok output => exact sparesDisk_pure output
  refine sparesDisk_bind (sparesDisk_bind (hinvoke _ _) fun output => ?_)
    fun _ => sparesDisk_pure _
  split_ifs
  · exact sparesDisk_pure _
  · exact sparesDisk_pure _
  · exact sparesDisk_throw _

end Sparing

namespace Oracle

def silent : Oracle Run := .ofTable ⟨[], [], [], []⟩

/-- Asking for bricks leaves the disk as it is. The oracle may change everything else and so answer
otherwise each time. -/
def OnlyAnswers (o : Oracle Run) : Prop :=
  ∀ path start length, SparesDisk (o.quickRead path start length)

theorem ofTable_onlyAnswers (table : Table) : OnlyAnswers (.ofTable table) :=
  fun _ _ _ => sparesDisk_pure _

theorem broken_onlyAnswers (reason : String) : OnlyAnswers (.broken reason) :=
  fun _ _ _ => sparesDisk_throw _

theorem ofAttribute_onlyAnswers {source : String → ExceptT Fault Run (Option String)}
    (hsource : ∀ path, SparesDisk (source path)) (here : String) :
    OnlyAnswers (.ofAttribute source here) :=
  fun path _ _ => sparesDisk_bind (sparesDisk_bind (hsource path) fun _ => sparesDisk_pure _)
    fun _ => sparesDisk_pure _

end Oracle

theorem Client.attributeOracle_onlyAnswers (here : String) :
    (Client.attributeOracle here : Oracle Run).OnlyAnswers :=
  Oracle.ofAttribute_onlyAnswers (fun _ _ => rfl) here

theorem Mount.commandOracle_onlyAnswers (here : String) :
    (Mount.commandOracle here : Oracle Run).OnlyAnswers :=
  Oracle.ofAttribute_onlyAnswers Shell.pathinfo_sparesDisk here

/-- How an operation ends, seen beside its end without advice and the answer of the oracle. -/
structure Unharmed {α β : Type} (asked : Except Fault β) (unadvised advised : Except Fault α) :
    Prop where
  succeeds : ∀ a, unadvised = .ok a → ∃ b, advised = .ok b
  /-- No fault is the oracle's. -/
  faults : ∀ fault, advised = .error fault → unadvised = .error fault
  /-- An oracle that fails might as well know nothing. -/
  failed : ∀ fault, asked = .error fault → advised = unadvised

namespace Unharmed

variable {α β γ : Type} {asked : Except Fault β}

theorem same (result : Except Fault α) : Unharmed asked result result :=
  ⟨fun a ha => ⟨a, ha⟩, fun _ h => h, fun _ _ => rfl⟩

theorem found {result : Except Fault α} {a : α}
    (h : ∀ fault, asked = .error fault → .ok a = result) : Unharmed asked result (.ok a) :=
  ⟨fun _ _ => ⟨a, rfl⟩, nofun, h⟩

/-- What comes before the oracle is asked goes the same way with and without advice. -/
theorem bind {x : ExceptT Fault Run γ} {f g : γ → ExceptT Fault Run α} {w : World}
    (h : ∀ c w', outcome x w = (.ok c, w') →
      Unharmed asked (outcome (f c) w').1 (outcome (g c) w').1) :
    Unharmed asked (outcome (x >>= f) w).1 (outcome (x >>= g) w).1 := by
  rcases hx : outcome x w with ⟨fault | c, w'⟩
  · rw [outcome_bind_error hx, outcome_bind_error hx]
    exact same _
  · rw [outcome_bind_ok hx, outcome_bind_ok hx]
    exact h c w' hx

end Unharmed

namespace Mount

def unadvised (t : Mount Run) : Mount Run := { t with oracle := .silent }

def answer {β : Type} (t : Mount Run) (p : Path) (question : String → ExceptT Fault Run β)
    (w : World) : Except Fault β :=
  (t.logical p).bind fun q => (outcome (question (t.localPath q)) w).1

variable {t : Mount Run} {p q : Path} {w w' : World}

theorem answer_seen {β : Type} {question : String → ExceptT Fault Run β}
    (hq : t.logical p = .ok q) :
    t.answer p question w = (outcome (question (t.localPath q)) w).1 := by
  rw [answer, hq]
  rfl

theorem requireMounted_ok (h : outcome t.requireMounted w = (.ok (), w')) : w' = w := by
  unfold requireMounted at h
  split_ifs at h
  · cases h
    rfl
  · cases h

theorem enter_ok (h : outcome (t.enter p) w = (.ok q, w')) : t.logical p = .ok q ∧ w' = w := by
  by_cases hphase : t.phase = .mounted
  · unfold enter at h
    rw [outcome_bind_ok (requireMounted_outcome hphase w), outcome_of_except] at h
    exact ⟨congrArg Prod.fst h, (congrArg Prod.snd h).symm⟩
  · obtain ⟨reason, hend⟩ := enter_unmounted hphase p w
    rw [hend] at h
    cases h

theorem naming_metadata (text path : String) (w : World) :
    outcome (naming text (DiskAccess.metadata path)) w =
      ((w.disk.metadata path).mapError (Fault.ofIo · text), w) := rfl

theorem metadata_ok {found : Metadata} (h : outcome (t.metadata q) w = (.ok found, w')) :
    w.disk.metadata (t.localPath q) = .ok found ∧ w' = w := by
  unfold metadata at h
  rw [naming_metadata] at h
  cases hfound : w.disk.metadata (t.localPath q) with
  | error e =>
    rw [hfound] at h
    cases h
  | ok found' =>
    rw [hfound] at h
    cases h
    exact ⟨rfl, rfl⟩

theorem entered_ok {α : Type} {a : α} {f : Path → Metadata → ExceptT Fault Run α}
    (h : (outcome (t.enter p >>= fun q => t.metadata q >>= f q) w).1 = .ok a) :
    ∃ q found, t.logical p = .ok q ∧ w.disk.metadata (t.localPath q) = .ok found ∧
      (outcome (f q found) w).1 = .ok a := by
  rcases henter : outcome (t.enter p) w with ⟨_ | q, w'⟩
  · rw [outcome_bind_error henter] at h
    cases h
  · obtain ⟨hq, rfl⟩ := enter_ok henter
    rw [outcome_bind_ok henter] at h
    rcases hmetadata : outcome (t.metadata q) w' with ⟨_ | found, w''⟩
    · rw [outcome_bind_error hmetadata] at h
      cases h
    · obtain ⟨hfound, rfl⟩ := metadata_ok hmetadata
      rw [outcome_bind_ok hmetadata] at h
      exact ⟨q, found, hq, hfound, h⟩

/-- The oracle is only asked about what is there. -/
theorem unharmed_entered {α β : Type} {asked : Except Fault β}
    {f g : Path → Metadata → ExceptT Fault Run α}
    (h : ∀ q found, t.logical p = .ok q → w.disk.metadata (t.localPath q) = .ok found →
      Unharmed asked (outcome (f q found) w).1 (outcome (g q found) w).1) :
    Unharmed asked (outcome (t.enter p >>= fun q => t.metadata q >>= f q) w).1
      (outcome (t.enter p >>= fun q => t.metadata q >>= g q) w).1 := by
  refine Unharmed.bind fun q w' henter => Unharmed.bind fun found w'' hfound => ?_
  obtain ⟨hq, rfl⟩ := enter_ok henter
  obtain ⟨hmetadata, rfl⟩ := metadata_ok hfound
  exact h q found hq hmetadata

theorem replication_unharmed (t : Mount Run) (p : Path) (w : World) :
    Unharmed (t.answer p t.oracle.replication w)
      (outcome (t.unadvised.replication p) w).1 (outcome (t.replication p) w).1 := by
  refine unharmed_entered (t := t) fun q found hq _ => ?_
  rw [outcome_orElseOf, outcome_orElseOf, answer_seen hq]
  refine .found fun fault hfault => ?_
  rw [hfault]
  rfl

theorem blockSize_unharmed (t : Mount Run) (p : Path) (w : World) :
    Unharmed (t.answer p t.oracle.blockSize w)
      (outcome (t.unadvised.blockSize p) w).1 (outcome (t.blockSize p) w).1 := by
  refine unharmed_entered (t := t) fun q found hq _ => ?_
  rw [outcome_bind_ok (outcome_orElseOf _ _ _), outcome_bind_ok (outcome_orElseOf _ _ _),
    answer_seen hq]
  refine .found fun fault hfault => ?_
  rw [hfault]
  rfl

/-- What the oracle is asked about a part of a file: where that of it lies which is inside. -/
def locationsAsked (t : Mount Run) (s : Status) (start length : UInt64) (file : String) :
    ExceptT Fault Run (List BlockLocation) :=
  match Offset.clampRange s.length start length with
  | none => pure []
  | some (start, length) => t.oracle.locations file start length

theorem blockLocations_unharmed (t : Mount Run) (s : Status) (start length : UInt64) (w : World) :
    Unharmed (t.answer s.path.unqualified (t.locationsAsked s start length) w)
      (outcome (t.unadvised.blockLocations s start length) w).1
      (outcome (t.blockLocations s start length) w).1 := by
  unfold blockLocations locationsAsked
  refine Unharmed.bind (x := t.requireMounted) fun _ w' hmounted => ?_
  obtain rfl : w' = w := requireMounted_ok hmounted
  cases hrange : Offset.clampRange s.length start length with
  | none => exact .same _
  | some part =>
    refine Unharmed.bind (x := ExceptT.mk (pure (t.logical s.path.unqualified)))
      fun q w'' hseen => ?_
    obtain ⟨hq, rfl⟩ := Prod.mk.inj hseen
    rw [outcome_orElseOf, outcome_orElseOf, answer_seen hq]
    refine .found fun fault hfault => ?_
    rw [hfault]
    rfl

section Unadvised

theorem unadvised_replication (t : Mount Run) (p : Path) :
    Returns (· = 1) (t.unadvised.replication p) := by
  unfold replication
  refine returns_last fun q => returns_last fun found => ?_
  exact returns_pure rfl

theorem unadvised_blockSize {size : UInt64}
    (h : (outcome (t.unadvised.blockSize p) w).1 = .ok size) :
    ∃ q found, t.logical p = .ok q ∧ w.disk.metadata (t.localPath q) = .ok found ∧
      size = found.length := by
  obtain ⟨q, found, hq, hfound, hsize⟩ := entered_ok h
  rw [outcome_bind_ok (outcome_orElseOf _ _ _)] at hsize
  exact ⟨q, found, hq, hfound, (Except.ok.inj hsize).symm⟩

theorem unadvised_blockLocations (t : Mount Run) (s : Status) (start length : UInt64) :
    Returns (· = []) (t.unadvised.blockLocations s start length) := by
  unfold blockLocations
  refine returns_last fun _ => ?_
  cases Offset.clampRange s.length start length with
  | none => exact returns_pure rfl
  | some part =>
    refine returns_last fun q => ?_
    exact returns_pure rfl

end Unadvised

end Mount

end VolumeFS
