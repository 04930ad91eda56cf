import VolumeFS.Proofs.Stream.Accepts
import VolumeFS.Proofs.Stream.Exposed

/-!
# Volumes whose calls do not fail

In an exposed world without failures operations end as in the world inside; the
history only tells how the volume came to be what it is in the end.
-/

set_option autoImplicit false

namespace VolumeFS.Exposed

open Volume

variable {α β σ : Type}

def Calm (s : Exposed) : Prop := ∀ i, s.failure? i = none

theorem Calm.next {s : Exposed} (h : s.Calm) (w : World) : (s.next w).Calm := h

theorem Calm.acted_call {s : Exposed} (h : s.Calm) (z : StreamT σ Run α) (stream : σ) :
    acted (streamCall z) stream s =
      ((acted z stream s.world).1, s.next (acted z stream s.world).2) := by
  rw [Exposed.acted_call, h s.calls]

theorem Kept.calm {I : Volume → Prop} {s s' : Exposed} (h : Kept I s s') (hs : s.Calm) :
    s'.Calm := by
  intro i
  rw [h.failures, hs i]

theorem Kept.tallied {I : Volume → Prop} {s s' : Exposed} (h : Kept I s s')
    (f : Statistics → Statistics) : Kept I s (Counted.tallied f s') :=
  ⟨h.failures, h.now, h.since⟩

/-- Without failures `x` does what `y` does, and `y` leaves the statistics as they are. -/
def Echoes (x : ExceptT Fault ExposedRun α) (y : ExceptT Fault Run α) : Prop :=
  ∀ s : Exposed, s.Calm → ∃ result s', ended x s = (result, s') ∧ s'.Calm ∧
    outcome y s.world = (result, s'.world) ∧ s'.world.statistics = s.world.statistics

theorem echoes_of_except (result : Except Fault α) :
    Echoes (ExceptT.mk (pure result)) (ExceptT.mk (pure result)) :=
  fun s hs => ⟨result, s, rfl, hs, rfl, rfl⟩

theorem echoes_pure (a : α) :
    Echoes (pure a : ExceptT Fault ExposedRun α) (pure a : ExceptT Fault Run α) :=
  fun s hs => ⟨.ok a, s, rfl, hs, rfl, rfl⟩

theorem echoes_throw (fault : Fault) :
    Echoes (throw fault : ExceptT Fault ExposedRun α) (throw fault : ExceptT Fault Run α) :=
  fun s hs => ⟨.error fault, s, rfl, hs, rfl, rfl⟩

variable {x : ExceptT Fault ExposedRun α} {y : ExceptT Fault Run α}

theorem echoes_bind {f : α → ExceptT Fault ExposedRun β} {g : α → ExceptT Fault Run β}
    (h : Echoes x y) (hf : ∀ a, Echoes (f a) (g a)) : Echoes (x >>= f) (y >>= g) := by
  intro s hs
  obtain ⟨result, s₁, hx, hs₁, hy, hcount⟩ := h s hs
  rw [ended_bind, hx]
  cases result with
  | error fault => exact ⟨.error fault, s₁, rfl, hs₁, outcome_bind_error hy g, hcount⟩
  | ok a =>
    obtain ⟨result, s₂, hfa, hs₂, hga, hcount'⟩ := hf a s₁ hs₁
    exact ⟨result, s₂, hfa, hs₂, (outcome_bind_ok hy g).trans hga, hcount'.trans hcount⟩

theorem echoes_ite {c : Prop} [Decidable c] {x' : ExceptT Fault ExposedRun α}
    {y' : ExceptT Fault Run α} (h : Echoes x y) (h' : Echoes x' y') :
    Echoes (if c then x else x') (if c then y else y') := by
  by_cases hc : c
  · rwa [if_pos hc, if_pos hc]
  · rwa [if_neg hc, if_neg hc]

theorem echoes_attempt (h : Echoes x y) : Echoes (attempt x) (attempt y) := by
  intro s hs
  obtain ⟨result, s', hx, hs', hy, hcount⟩ := h s hs
  exact ⟨.ok result, s', by rw [ended_attempt, hx], hs', by rw [outcome_attempt, hy], hcount⟩

theorem echoes_call (hcount : ∀ w, (outcome y w).2.statistics = w.statistics) :
    Echoes (call y) y := by
  intro s hs
  refine ⟨(outcome y s.world).1, s.next (outcome y s.world).2, ?_, hs.next _, rfl,
    hcount s.world⟩
  rw [ended_call, hs s.calls]

theorem echoes_look (f : Volume → Except Fault α) : Echoes (call (look f)) (look f) :=
  echoes_call fun _ => rfl

theorem echoes_update (f : Volume → Except Fault Volume) :
    Echoes (call (update f)) (update f) := by
  refine echoes_call fun w => ?_
  rw [outcome_update]
  cases f w.volume <;> rfl

theorem echoes_pause (time : Nat) :
    Echoes (liftM (Clock.pause time : ExposedRun Unit)) (liftM (Clock.pause time : Run Unit)) :=
  fun _ hs => ⟨.ok (), _, rfl, hs, rfl, rfl⟩

theorem echoes_orFault {z : StreamT σ Run α}
    (hcount : ∀ stream w, (acted z stream w).2.statistics = w.statistics) (stream : σ) :
    Echoes (Stream.orFault (streamCall z) stream) (Stream.orFault z stream) := by
  intro s hs
  have hquiet := hcount stream s.world
  rw [ended_orFault, hs.acted_call]
  rcases hz : acted z stream s.world with ⟨⟨e | a, stream'⟩, w'⟩
  · rw [hz] at hquiet
    refine ⟨_, _, rfl, hs.next w', ?_, hquiet⟩
    rw [outcome_orFault, hz]
    rfl
  · rw [hz] at hquiet
    refine ⟨_, _, rfl, hs.next w', ?_, hquiet⟩
    rw [outcome_orFault, hz]
    rfl

end VolumeFS.Exposed
