import VolumeFS.Proofs.Run

/-!
# Volumes whose calls fail

In an exposed world any call to the volume may fail, and then it has no effect.
Which calls fail is given by their numbers, and the volume is noted after each
call. A run in such a world tracks the run of the same operation in a world
without failures: as long as no failure ends it, both do the same.
-/

set_option autoImplicit false

namespace VolumeFS

open Volume

/-- What a failing call ends with: a fault, or an error where it acts on a stream. -/
structure Failure where
  fault : Fault
  error : IoError

structure Exposed where
  world : World
  /-- How the call with a number fails, if it does. -/
  failure? : Nat → Option Failure
  /-- The number of the next call. -/
  calls : Nat
  /-- The volume after each call, the latest first. -/
  history : List Volume

abbrev ExposedRun := StateM Exposed

namespace Exposed

variable {α β σ : Type}

def start (w : World) (failure? : Nat → Option Failure) : Exposed := ⟨w, failure?, 0, []⟩

def next (s : Exposed) (w : World) : Exposed :=
  { s with world := w, calls := s.calls + 1, history := w.volume :: s.history }

def call (x : ExceptT Fault Run α) : ExceptT Fault ExposedRun α :=
  ExceptT.mk fun s =>
    match s.failure? s.calls with
    | some failure => (.error failure.fault, s.next s.world)
    | none => ((outcome x s.world).1, s.next (outcome x s.world).2)

def streamCall (x : StreamT σ Run α) : StreamT σ ExposedRun α :=
  ExceptT.mk fun stream s =>
    match s.failure? s.calls with
    | some failure => ((.error failure.error, stream), s.next s.world)
    | none => ((acted x stream s.world).1, s.next (acted x stream s.world).2)

end Exposed

open Exposed

instance : VolumeAccess ExposedRun where
  read n := streamCall (Readable.read n)
  seek place := streamCall (Readable.seek place)
  write bytes := streamCall (Writable.write bytes)
  flush := streamCall Writable.flush
  shutdown := streamCall Writable.shutdown
  stat k := call (VolumeAccess.stat k)
  createFile k := call (VolumeAccess.createFile k)
  makeDirectory k := call (VolumeAccess.makeDirectory k)
  delete k := call (VolumeAccess.delete k)
  rename source target := call (VolumeAccess.rename source target)
  list k := call (VolumeAccess.list k)
  chmod k mode := call (VolumeAccess.chmod k mode)
  chown k uid gid := call (VolumeAccess.chown k uid gid)
  openReader k := call (VolumeAccess.openReader k)
  openWriter k := call (VolumeAccess.openWriter k)
  seekWriter place := streamCall (VolumeAccess.seekWriter place)
  space := call VolumeAccess.space
  attributeOf k name := call (VolumeAccess.attributeOf k name)
  reach := fun s => (((VolumeAccess.reach : Run Nat) s.world).1, s)

instance : Clock ExposedRun where
  pause time := modify fun s => { s with world := ((Clock.pause time : Run Unit) s.world).2 }

instance : MonadStateOf Statistics ExposedRun where
  get := fun s => (s.world.statistics, s)
  set total := fun s => ((), { s with world := { s.world with statistics := total } })
  modifyGet f := fun s =>
    let (a, total) := f s.world.statistics
    (a, { s with world := { s.world with statistics := total } })

namespace Exposed

variable {α β σ : Type}

def ended (x : ExceptT Fault ExposedRun α) (s : Exposed) : Except Fault α × Exposed :=
  x.run s

theorem ended_bind (x : ExceptT Fault ExposedRun α) (f : α → ExceptT Fault ExposedRun β)
    (s : Exposed) : ended (x >>= f) s =
      match ended x s with
      | (.ok a, s') => ended (f a) s'
      | (.error fault, s') => (.error fault, s') := by
  unfold ended
  change (ExceptT.bindCont f) (x.run s).1 (x.run s).2 = _
  rcases x.run s with ⟨_ | a, s'⟩ <;> rfl

theorem ended_attempt (x : ExceptT Fault ExposedRun α) (s : Exposed) :
    ended (attempt x) s = (.ok (ended x s).1, (ended x s).2) := rfl

theorem ended_call (x : ExceptT Fault Run α) (s : Exposed) : ended (call x) s =
    match s.failure? s.calls with
    | some failure => (.error failure.fault, s.next s.world)
    | none => ((outcome x s.world).1, s.next (outcome x s.world).2) := rfl

/-- Faults that come from failures: those of calls, of streams, and of deletes that were stopped. -/
inductive Caused (failure? : Nat → Option Failure) : Fault → Prop
  | call {i : Nat} {failure : Failure} : failure? i = some failure → Caused failure? failure.fault
  | stream {i : Nat} {failure : Failure} :
      failure? i = some failure → Caused failure? (.io failure.error)
  | stopped {path failed : String} {undeleted : List String} {cause : Fault} :
      Caused failure? cause → Caused failure? (.partialDelete path failed undeleted cause)

structure Kept (I : Volume → Prop) (s s' : Exposed) : Prop where
  failures : s'.failure? = s.failure?
  now : I s'.world.volume
  since : ∃ new, s'.history = new ++ s.history ∧ ∀ v ∈ new, I v

variable {I : Volume → Prop} {s s₁ s₂ : Exposed}

theorem Kept.refl (h : I s.world.volume) : Kept I s s :=
  ⟨rfl, h, [], rfl, by simp⟩

theorem Kept.trans (h₁ : Kept I s s₁) (h₂ : Kept I s₁ s₂) : Kept I s s₂ := by
  obtain ⟨new₁, hnew₁, hall₁⟩ := h₁.since
  obtain ⟨new₂, hnew₂, hall₂⟩ := h₂.since
  refine ⟨h₂.failures.trans h₁.failures, h₂.now, new₂ ++ new₁, ?_, ?_⟩
  · rw [hnew₂, hnew₁, List.append_assoc]
  · intro v hv
    rcases List.mem_append.1 hv with hv | hv
    · exact hall₂ v hv
    · exact hall₁ v hv

theorem Kept.next {w : World} (h : I w.volume) : Kept I s (s.next w) :=
  ⟨rfl, h, [w.volume], rfl, by simpa using h⟩

theorem Kept.mono {J : Volume → Prop} (h : Kept I s s₁) (hIJ : ∀ v, I v → J v) : Kept J s s₁ := by
  obtain ⟨new, hnew, hall⟩ := h.since
  exact ⟨h.failures, hIJ _ h.now, new, hnew, fun v hv => hIJ v (hall v hv)⟩

/-- An end that is the one without failures, with a value as `Q` says, or that a failure caused. -/
inductive Ending (y : ExceptT Fault Run α) (Q : α → Prop) (s : Exposed) :
    Except Fault α → Exposed → Prop
  | same {result : Except Fault α} {s' : Exposed} : outcome y s.world = (result, s'.world) →
      (∀ a, result = .ok a → Q a) → Ending y Q s result s'
  | failed {fault : Fault} {s' : Exposed} : Caused s.failure? fault → Ending y Q s (.error fault) s'

/-- The end of what goes on in a later world is the end of the whole. -/
theorem Ending.after {y g : ExceptT Fault Run β} {Q : β → Prop} {result : Except Fault β}
    (h : Ending g Q s₁ result s₂) (hfailures : s₁.failure? = s.failure?)
    (hy : outcome y s.world = outcome g s₁.world) : Ending y Q s result s₂ := by
  cases h with
  | same hsame hvalue => exact .same (hy.trans hsame) hvalue
  | failed hcause => exact .failed (hfailures ▸ hcause)

/-- In a world whose volume is as `I` says, and with failures, `x` keeps it so throughout and does
what `y` does without failures, unless one of them ends it. -/
def Tracks (I : Volume → Prop) (x : ExceptT Fault ExposedRun α) (y : ExceptT Fault Run α)
    (Q : α → Prop) : Prop :=
  ∀ s : Exposed, I s.world.volume →
    Kept I s (ended x s).2 ∧ Ending y Q s (ended x s).1 (ended x s).2

section Rules

variable {x : ExceptT Fault ExposedRun α} {y : ExceptT Fault Run α} {P : α → Prop} {Q : β → Prop}

theorem Tracks.ending (h : Tracks I x y P) (hs : I s.world.volume) :
    ∃ result s', ended x s = (result, s') ∧ Kept I s s' ∧ Ending y P s result s' :=
  ⟨_, _, rfl, h s hs⟩

theorem tracks_of_except {result : Except Fault α} (h : ∀ a, result = .ok a → P a) :
    Tracks I (ExceptT.mk (pure result)) (ExceptT.mk (pure result)) P :=
  fun _ hs => ⟨.refl hs, .same rfl h⟩

theorem tracks_pure {a : α} (h : P a) :
    Tracks I (pure a : ExceptT Fault ExposedRun α) (pure a : ExceptT Fault Run α) P :=
  fun _ hs => ⟨.refl hs, .same rfl (fun b hb => by cases hb; exact h)⟩

theorem tracks_throw (fault : Fault) :
    Tracks I (throw fault : ExceptT Fault ExposedRun α) (throw fault : ExceptT Fault Run α) P :=
  fun _ hs => ⟨.refl hs, .same rfl (fun b hb => by cases hb)⟩

theorem tracks_bind {f : α → ExceptT Fault ExposedRun β} {g : α → ExceptT Fault Run β}
    (hx : Tracks I x y P) (hf : ∀ a, P a → Tracks I (f a) (g a) Q) :
    Tracks I (x >>= f) (y >>= g) Q := by
  intro s hs
  have hpart := hx s hs
  rw [ended_bind]
  generalize ended x s = first at hpart
  obtain ⟨result, s₁⟩ := first
  obtain ⟨hkept, hend⟩ := hpart
  dsimp only at hkept hend
  cases hend with
  | failed hcause => exact ⟨hkept, .failed hcause⟩
  | same hsame hvalue =>
    cases result with
    | error fault => exact ⟨hkept, .same (outcome_bind_error hsame g) (fun b hb => by cases hb)⟩
    | ok a =>
      have hrest := hf a (hvalue a rfl) s₁ hkept.now
      exact ⟨hkept.trans hrest.1, hrest.2.after hkept.failures (outcome_bind_ok hsame g)⟩

theorem tracks_ite {c : Prop} [Decidable c] {x' : ExceptT Fault ExposedRun α}
    {y' : ExceptT Fault Run α} (h : Tracks I x y P) (h' : Tracks I x' y' P) :
    Tracks I (if c then x else x') (if c then y else y') P := by
  by_cases hc : c
  · rwa [if_pos hc, if_pos hc]
  · rwa [if_neg hc, if_neg hc]

/-- A call that keeps `I` whenever it does not fail. -/
theorem tracks_call (hI : ∀ w : World, I w.volume → I (outcome y w).2.volume)
    (hP : ∀ (w : World) a, I w.volume → (outcome y w).1 = .ok a → P a) :
    Tracks I (call y) y P := by
  intro s hs
  rw [ended_call]
  cases hf : s.failure? s.calls with
  | some failure => exact ⟨.next hs, .failed (.call hf)⟩
  | none => exact ⟨.next (hI s.world hs), .same rfl (hP s.world · hs)⟩

/-- A call that only looks. -/
theorem tracks_look {f : Volume → Except Fault α}
    (hP : ∀ v a, I v → f v = .ok a → P a) : Tracks I (call (look f)) (look f) P :=
  tracks_call (fun _ hw => hw) (fun w a hw ha => hP w.volume a hw ha)

/-- A call that changes the volume or is refused. -/
theorem tracks_update {f : Volume → Except Fault Volume} (hf : ∀ v v', I v → f v = .ok v' → I v') :
    Tracks I (call (update f)) (update f) (fun _ => True) := by
  refine tracks_call (fun w hw => ?_) (fun _ _ _ _ => trivial)
  rw [outcome_update]
  cases hv : f w.volume with
  | error fault => exact hw
  | ok v => exact hf _ _ hw hv

theorem tracks_reach : Tracks I (liftM (VolumeAccess.reach : ExposedRun Nat))
    (liftM (VolumeAccess.reach : Run Nat)) (fun _ => True) :=
  fun _ hs => ⟨.refl hs, .same rfl (fun _ _ => trivial)⟩

/-- What goes on after a fault of its part only wraps that fault. -/
theorem tracks_attempt {f : Except Fault α → ExceptT Fault ExposedRun β}
    {g : Except Fault α → ExceptT Fault Run β} {wrap : Fault → Fault} (hx : Tracks I x y P)
    (hok : ∀ a, P a → Tracks I (f (.ok a)) (g (.ok a)) Q)
    (herror : ∀ fault, f (.error fault) = throw (wrap fault) ∧ g (.error fault) = throw (wrap fault))
    (hwrap : ∀ failure? fault, Caused failure? fault → Caused failure? (wrap fault)) :
    Tracks I (attempt x >>= f) (attempt y >>= g) Q := by
  intro s hs
  have hpart := hx s hs
  rw [ended_bind, ended_attempt]
  generalize ended x s = first at hpart
  obtain ⟨result, s₁⟩ := first
  obtain ⟨hkept, hend⟩ := hpart
  dsimp only at hkept hend ⊢
  cases hend with
  | failed hcause =>
    rw [(herror _).1]
    exact ⟨hkept, .failed (hwrap _ _ hcause)⟩
  | same hsame hvalue =>
    have hplain : outcome (attempt y >>= g) s.world = outcome (g result) s₁.world := by
      rw [outcome_bind_ok (outcome_attempt y s.world), hsame]
    cases result with
    | error fault =>
      rw [(herror _).1]
      rw [(herror _).2] at hplain
      exact ⟨hkept, .same hplain (fun b hb => by cases hb)⟩
    | ok a =>
      have hrest := hok a (hvalue a rfl) s₁ hkept.now
      exact ⟨hkept.trans hrest.1, hrest.2.after hkept.failures hplain⟩

end Rules

end Exposed

end VolumeFS
