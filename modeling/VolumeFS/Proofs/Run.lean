import VolumeFS.Client
import VolumeFS.World

/-!
# Outcomes of runs

A run of a file system operation is a function of the world it starts in. Its
`outcome` is what it returns or the fault it ends with, together with the world
it leaves. The lemmas say how outcomes compose and what the single calls to the
volume, the disk and the clock do.
-/

set_option autoImplicit false

namespace VolumeFS

variable {α β : Type}

section Ending

variable {σ : Type}

def ending (x : ExceptT Fault (StateM σ) α) (s : σ) : Except Fault α × σ :=
  x.run s

theorem ending_bind (x : ExceptT Fault (StateM σ) α) (f : α → ExceptT Fault (StateM σ) β) (s : σ) :
    ending (x >>= f) s =
      match ending x s with
      | (.ok a, s') => ending (f a) s'
      | (.error fault, s') => (.error fault, s') := by
  unfold ending
  change (ExceptT.bindCont f) (x.run s).1 (x.run s).2 = _
  rcases x.run s with ⟨_ | a, s'⟩ <;> rfl

theorem ending_bind_ok {x : ExceptT Fault (StateM σ) α} {a : α} {s s' : σ}
    (h : ending x s = (.ok a, s')) (f : α → ExceptT Fault (StateM σ) β) :
    ending (x >>= f) s = ending (f a) s' := by
  rw [ending_bind, h]

theorem ending_bind_error {x : ExceptT Fault (StateM σ) α} {fault : Fault} {s s' : σ}
    (h : ending x s = (.error fault, s')) (f : α → ExceptT Fault (StateM σ) β) :
    ending (x >>= f) s = (.error fault, s') := by
  rw [ending_bind, h]

/-- One call after another ends where the first fails, or as the second does. -/
theorem ending_bind_cases {x : ExceptT Fault (StateM σ) α} {f : α → ExceptT Fault (StateM σ) β}
    {result : Except Fault β} {s s' : σ} (h : ending (x >>= f) s = (result, s')) :
    (∃ fault, result = .error fault ∧ ending x s = (.error fault, s')) ∨
      ∃ a between, ending x s = (.ok a, between) ∧ ending (f a) between = (result, s') := by
  rw [ending_bind] at h
  rcases hx : ending x s with ⟨fault | a, between⟩
  · rw [hx] at h
    cases h
    exact .inl ⟨fault, rfl, rfl⟩
  · rw [hx] at h
    exact .inr ⟨a, between, rfl, h⟩

/-- What two calls leave as it is, one after the other leaves as it is. -/
theorem ending_bind_keeps {γ : Type} (part : σ → γ) {x : ExceptT Fault (StateM σ) α}
    {f : α → ExceptT Fault (StateM σ) β} (hx : ∀ s, part (ending x s).2 = part s)
    (hf : ∀ a s, part (ending (f a) s).2 = part s) (s : σ) :
    part (ending (x >>= f) s).2 = part s := by
  rcases hrun : ending (x >>= f) s with ⟨result, s'⟩
  have hfirst := hx s
  obtain ⟨fault, -, hfault⟩ | ⟨a, between, hdone, hrest⟩ := ending_bind_cases hrun
  · rwa [hfault] at hfirst
  · have hsecond := hf a between
    rw [hdone] at hfirst
    rw [hrest] at hsecond
    exact hsecond.trans hfirst

theorem ending_attempt (x : ExceptT Fault (StateM σ) α) (s : σ) :
    ending (attempt x) s = (.ok (ending x s).1, (ending x s).2) := rfl

end Ending

def outcome (x : ExceptT Fault Run α) (w : World) : Except Fault α × World :=
  x.run w

/-- A run is an operation whose state is the world. -/
theorem outcome_ending (x : ExceptT Fault Run α) (w : World) : outcome x w = ending x w := rfl

@[simp] theorem outcome_pure (a : α) (w : World) :
    outcome (pure a) w = (.ok a, w) := rfl

@[simp] theorem outcome_throw (fault : Fault) (w : World) :
    outcome (throw fault : ExceptT Fault Run α) w = (.error fault, w) := rfl

@[simp] theorem outcome_of_except (result : Except Fault α) (w : World) :
    outcome (ExceptT.mk (pure result)) w = (result, w) := rfl

theorem outcome_bind (x : ExceptT Fault Run α) (f : α → ExceptT Fault Run β) (w : World) :
    outcome (x >>= f) w =
      match outcome x w with
      | (.ok a, w') => outcome (f a) w'
      | (.error fault, w') => (.error fault, w') := by
  rw [outcome_ending, outcome_ending, ending_bind]
  rcases ending x w with ⟨_ | a, w'⟩ <;> rfl

theorem outcome_bind_ok {x : ExceptT Fault Run α} {a : α} {w w' : World}
    (h : outcome x w = (.ok a, w')) (f : α → ExceptT Fault Run β) :
    outcome (x >>= f) w = outcome (f a) w' :=
  ending_bind_ok h f

theorem outcome_bind_error {x : ExceptT Fault Run α} {fault : Fault} {w w' : World}
    (h : outcome x w = (.error fault, w')) (f : α → ExceptT Fault Run β) :
    outcome (x >>= f) w = (.error fault, w') :=
  ending_bind_error h f

theorem outcome_bind_cases {x : ExceptT Fault Run α} {f : α → ExceptT Fault Run β}
    {result : Except Fault β} {w w' : World} (h : outcome (x >>= f) w = (result, w')) :
    (∃ fault, result = .error fault ∧ outcome x w = (.error fault, w')) ∨
      ∃ a between, outcome x w = (.ok a, between) ∧ outcome (f a) between = (result, w') :=
  ending_bind_cases h

theorem outcome_bind_keeps {γ : Type} (part : World → γ) {x : ExceptT Fault Run α}
    {f : α → ExceptT Fault Run β} (hx : ∀ w, part (outcome x w).2 = part w)
    (hf : ∀ a w, part (outcome (f a) w).2 = part w) (w : World) :
    part (outcome (x >>= f) w).2 = part w :=
  ending_bind_keeps part hx hf w

/-- Nothing comes of going on with what is there. -/
theorem outcome_done (x : ExceptT Fault Run Unit) (w : World) :
    outcome (x >>= fun _ => pure ()) w = outcome x w := by
  rw [outcome_bind]
  rcases outcome x w with ⟨_ | _, w'⟩ <;> rfl

theorem outcome_attempt (x : ExceptT Fault Run α) (w : World) :
    outcome (attempt x) w = (.ok (outcome x w).1, (outcome x w).2) :=
  ending_attempt x w

theorem outcome_orElseOf (x : ExceptT Fault Run α) (standIn : α) (w : World) :
    outcome (orElseOf x standIn) w =
      (.ok ((outcome x w).1.toOption.getD standIn), (outcome x w).2) := by
  unfold orElseOf
  rw [outcome_bind_ok (outcome_attempt x w)]
  rfl

def Returns (P : α → Prop) (x : ExceptT Fault Run α) : Prop :=
  ∀ ⦃w w' : World⦄ ⦃a : α⦄, outcome x w = (.ok a, w') → P a

theorem returns_pure {P : α → Prop} {a : α} (h : P a) : Returns P (pure a) := by
  intro w w' b hb
  cases hb
  exact h

theorem returns_throw {P : α → Prop} (fault : Fault) :
    Returns P (throw fault : ExceptT Fault Run α) := by
  intro w w' a ha
  cases ha

theorem returns_bind {Q : α → Prop} {P : β → Prop} {x : ExceptT Fault Run α}
    {f : α → ExceptT Fault Run β} (hx : Returns Q x) (hf : ∀ a, Q a → Returns P (f a)) :
    Returns P (x >>= f) := by
  intro w w' b h
  obtain ⟨fault, hfault, -⟩ | ⟨a, between, hrun, hrest⟩ := outcome_bind_cases h
  · cases hfault
  · exact hf a (hx hrun) hrest

/-- Only what comes last matters for what is returned. -/
theorem returns_last {P : β → Prop} {x : ExceptT Fault Run α} {f : α → ExceptT Fault Run β}
    (hf : ∀ a, Returns P (f a)) : Returns P (x >>= f) :=
  returns_bind (Q := fun _ => True) (fun _ _ _ _ => trivial) fun a _ => hf a

section Stream

variable {σ τ W : Type}

/-- How an action on a stream ends and the stream it leaves, together with the world. -/
def acted (x : StreamT σ (StateM W) α) (s : σ) (w : W) : (Except IoError α × σ) × W :=
  Stream.act x s w

theorem acted_pure (a : α) (s : σ) (w : W) :
    acted (pure a) s w = ((.ok a, s), w) := rfl

theorem acted_bind (x : StreamT σ (StateM W) α) (f : α → StreamT σ (StateM W) β) (s : σ) (w : W) :
    acted (x >>= f) s w =
      match acted x s w with
      | ((.ok a, s'), w') => acted (f a) s' w'
      | ((.error e, s'), w') => ((.error e, s'), w') := by
  unfold acted Stream.act
  change (ExceptT.bindCont f) (x.run.run s w).1.1 (x.run.run s w).1.2 (x.run.run s w).2 = _
  rcases x.run.run s w with ⟨⟨_ | a, s'⟩, w'⟩ <;> rfl

theorem acted_bind_ok {x : StreamT σ (StateM W) α} {a : α} {s s' : σ} {w w' : W}
    (h : acted x s w = ((.ok a, s'), w')) (f : α → StreamT σ (StateM W) β) :
    acted (x >>= f) s w = acted (f a) s' w' := by
  rw [acted_bind, h]

theorem acted_bind_cases {x : StreamT σ (StateM W) α} {f : α → StreamT σ (StateM W) β}
    {result : Except IoError β} {s s' : σ} {w w' : W}
    (h : acted (x >>= f) s w = ((result, s'), w')) :
    (∃ e, result = .error e ∧ acted x s w = ((.error e, s'), w')) ∨
      ∃ a s₁ w₁, acted x s w = ((.ok a, s₁), w₁) ∧ acted (f a) s₁ w₁ = ((result, s'), w') := by
  rw [acted_bind] at h
  rcases hx : acted x s w with ⟨⟨e | a, s₁⟩, w₁⟩
  · rw [hx] at h
    cases h
    exact .inl ⟨e, rfl, rfl⟩
  · rw [hx] at h
    exact .inr ⟨a, s₁, w₁, rfl, h⟩

theorem acted_get_bind (f : σ → StreamT σ (StateM W) β) (s : σ) (w : W) :
    acted (get >>= f) s w = acted (f s) s w := rfl

theorem acted_lift_bind (y : StateM W α) (f : α → StreamT σ (StateM W) β) (s : σ) (w : W) :
    acted ((liftM y : StreamT σ (StateM W) α) >>= f) s w = acted (f (y w).1) s (y w).2 := rfl

theorem acted_onPart (part : σ → τ) (put : σ → τ → σ) (x : StreamT τ (StateM W) α) (s : σ) (w : W) :
    acted (Stream.onPart part put x) s w =
      (((acted x (part s) w).1.1, put s (acted x (part s) w).1.2), (acted x (part s) w).2) := rfl

/-- Within an operation an error of a stream is a fault. -/
theorem outcome_orFault (x : StreamT σ Run α) (s : σ) (w : World) :
    outcome (Stream.orFault x s) w =
      match acted x s w with
      | ((.ok a, s'), w') => (.ok (a, s'), w')
      | ((.error e, _), w') => (.error (.io e), w') := by
  unfold acted outcome Stream.orFault
  simp only [ExceptT.run_mk, bind, StateT.bind]
  rcases Stream.act x s w with ⟨⟨_ | a, s'⟩, w'⟩ <;> rfl

theorem outcome_orFault_ok {x : StreamT σ Run α} {a : α} {s s' : σ} {w w' : World}
    (h : acted x s w = ((.ok a, s'), w')) :
    outcome (Stream.orFault x s) w = (.ok (a, s'), w') := by
  rw [outcome_orFault, h]

end Stream

section Volume
open Volume

theorem getThe_volume (w : World) : (getThe Volume : Run Volume) w = (w.volume, w) := rfl

theorem modifyGetThe_volume (f : Volume → α × Volume) (w : World) :
    (modifyGetThe Volume f : Run α) w =
      ((f w.volume).1, { w with volume := (f w.volume).2 }) := rfl

theorem outcome_update (f : Volume → Except Fault Volume) (w : World) :
    outcome (update f) w =
      match f w.volume with
      | .ok v => (.ok (), { w with volume := v })
      | .error fault => (.error fault, w) := by
  change (_, World.mk _ _ _ _ _ _) = _
  rcases f w.volume with _ | v <;> rfl

theorem outcome_update_ok {f : Volume → Except Fault Volume} {w : World} {v : Volume}
    (h : f w.volume = .ok v) : outcome (update f) w = (.ok (), { w with volume := v }) := by
  rw [outcome_update, h]

theorem outcome_update_error {f : Volume → Except Fault Volume} {w : World} {fault : Fault}
    (h : f w.volume = .error fault) : outcome (update f) w = (.error fault, w) := by
  rw [outcome_update, h]

@[simp] theorem outcome_stat (k : Key) (w : World) :
    outcome (VolumeAccess.stat k) w = (.ok (w.volume.stat? k), w) := rfl

@[simp] theorem outcome_list (k : Key) (w : World) :
    outcome (VolumeAccess.list k) w = (w.volume.list k, w) := rfl

theorem outcome_openReader {k : Key} {w : World} {data : List Byte}
    (h : w.volume.readable k = .ok data) :
    outcome (VolumeAccess.openReader k) w = (.ok ⟨.ofBytes data⟩, w) := by
  change (Except.map _ (w.volume.readable k), w) = _
  rw [h]
  rfl

theorem outcome_openWriter {k : Key} {w : World} {data : List Byte}
    (h : w.volume.readable k = .ok data) :
    outcome (VolumeAccess.openWriter k) w = (.ok ⟨k, 0⟩, w) := by
  change (Except.map _ (w.volume.readable k), w) = _
  rw [h]
  rfl

theorem outcome_requireStat (k : Key) (w : World) :
    outcome (Volume.requireStat k) w =
      match w.volume.stat? k with
      | some st => (.ok st, w)
      | none => (.error (.notFound k.text), w) := by
  unfold Volume.requireStat
  rw [outcome_bind_ok (outcome_stat k w)]
  rcases w.volume.stat? k with _ | st <;> rfl

theorem acted_write (bytes : List Byte) (w : Writer) (world : World) :
    acted (Writable.write bytes) w world =
      match writeAt w.key w.position.toNat bytes world.volume with
      | .ok v => ((.ok bytes.length,
          { w with position := w.position + UInt64.ofNat bytes.length }),
          { world with volume := v })
      | .error e => ((.error e, w), world) := by
  change acted (Writer.write bytes) w world = _
  unfold Writer.write
  rw [acted_get_bind, acted_lift_bind, modifyGetThe_volume]
  cases writeAt w.key w.position.toNat bytes world.volume <;> rfl

theorem acted_seek_world (place : SeekFrom) (w : Writer) (world : World) :
    (acted (VolumeAccess.seekWriter place) w world).2 = world := by
  change (acted (Writer.seek place) w world).2 = _
  unfold Writer.seek
  rw [acted_bind]
  have hl : ∃ r, acted (Writer.length place) w world = ((r, w), world) := by
    unfold Writer.length
    rw [acted_get_bind]
    cases place with
    | start offset => exact ⟨_, rfl⟩
    | current distance => exact ⟨_, rfl⟩
    | stop distance =>
      dsimp only
      rw [acted_lift_bind, getThe_volume]
      cases world.volume.contents? w.key <;> exact ⟨_, rfl⟩
  obtain ⟨_ | length, hr⟩ := hl
  · rw [hr]
  · rw [hr]
    dsimp only
    rw [acted_get_bind]
    cases w.target? length place <;> rfl

end Volume

end VolumeFS
