import VolumeFS.Proofs.Volume.Exposed

/-!
# Streams of a volume whose calls fail

Actions on streams track their counterparts as operations do. Hence so does
copying, whatever the streams are, as long as reading and writing them does.
-/

set_option autoImplicit false

namespace VolumeFS.Exposed

open Volume

variable {α β σ τ ρ ω : Type} {I : Volume → Prop} {s s₁ s₂ : Exposed}

theorem acted_call (x : StreamT σ Run α) (stream : σ) (s : Exposed) :
    acted (streamCall x) stream s =
      match s.failure? s.calls with
      | some failure => ((.error failure.error, stream), s.next s.world)
      | none => ((acted x stream s.world).1, s.next (acted x stream s.world).2) := rfl

theorem ended_orFault (x : StreamT σ ExposedRun α) (stream : σ) (s : Exposed) :
    ended (Stream.orFault x stream) s =
      match acted x stream s with
      | ((.ok a, stream'), s') => (.ok (a, stream'), s')
      | ((.error e, _), s') => (.error (.io e), s') := by
  unfold acted ended Stream.orFault
  simp only [ExceptT.run_mk, bind, StateT.bind]
  rcases Stream.act x stream s with ⟨⟨_ | a, stream'⟩, s'⟩ <;> rfl

/-- An end that is the one without failures, with a stream as `P` says, or that a failure caused. -/
inductive StreamEnding (y : StreamT σ Run α) (P : σ → Prop) (stream : σ) (s : Exposed) :
    Except IoError α → σ → Exposed → Prop
  | same {result : Except IoError α} {stream' : σ} {s' : Exposed} :
      acted y stream s.world = ((result, stream'), s'.world) → P stream' →
      StreamEnding y P stream s result stream' s'
  | failed {i : Nat} {failure : Failure} {stream' : σ} {s' : Exposed} :
      s.failure? i = some failure → StreamEnding y P stream s (.error failure.error) stream' s'

/-- Acting on streams as `P` says, `x` keeps the volume as `I` says and does what `y` does without
failures, unless one of them ends it. -/
def StreamTracks (I : Volume → Prop) (P : σ → Prop) (x : StreamT σ ExposedRun α)
    (y : StreamT σ Run α) : Prop :=
  ∀ stream s, P stream → I s.world.volume →
    Kept I s (acted x stream s).2 ∧
    StreamEnding y P stream s (acted x stream s).1.1 (acted x stream s).1.2
      (acted x stream s).2

theorem StreamEnding.after {y g : StreamT σ Run α} {P : σ → Prop} {stream stream₁ stream₂ : σ}
    {result : Except IoError α} (h : StreamEnding g P stream₁ s₁ result stream₂ s₂)
    (hfailures : s₁.failure? = s.failure?)
    (hy : acted y stream s.world = acted g stream₁ s₁.world) :
    StreamEnding y P stream s result stream₂ s₂ := by
  cases h with
  | same hsame hstream => exact .same (hy.trans hsame) hstream
  | failed hf => exact .failed (hfailures ▸ hf)

section Rules

variable {P : σ → Prop} {x : StreamT σ ExposedRun α} {y : StreamT σ Run α}

theorem streamTracks_pure (a : α) :
    StreamTracks I P (pure a : StreamT σ ExposedRun α) (pure a : StreamT σ Run α) :=
  fun _ _ hp hs => ⟨.refl hs, .same rfl hp⟩

theorem streamTracks_throw (e : IoError) :
    StreamTracks I P (throw e : StreamT σ ExposedRun α) (throw e : StreamT σ Run α) :=
  fun _ _ hp hs => ⟨.refl hs, .same rfl hp⟩

theorem streamTracks_modify {f : σ → σ} (hf : ∀ stream, P stream → P (f stream)) :
    StreamTracks I P (modify f : StreamT σ ExposedRun PUnit) (modify f : StreamT σ Run PUnit) :=
  fun stream _ hp hs => ⟨.refl hs, .same rfl (hf stream hp)⟩

theorem streamTracks_get {f : σ → StreamT σ ExposedRun β} {g : σ → StreamT σ Run β}
    (h : ∀ stream, StreamTracks I P (f stream) (g stream)) :
    StreamTracks I P (get >>= f) (get >>= g) :=
  fun stream s hp hs =>
    have hrest := h stream stream s hp hs
    ⟨hrest.1, hrest.2.after rfl rfl⟩

theorem streamTracks_bind {f : α → StreamT σ ExposedRun β} {g : α → StreamT σ Run β}
    (hx : StreamTracks I P x y) (hf : ∀ a, StreamTracks I P (f a) (g a)) :
    StreamTracks I P (x >>= f) (y >>= g) := by
  intro stream s hp hs
  have hpart := hx stream s hp hs
  rw [acted_bind]
  generalize acted x stream s = first at hpart
  obtain ⟨⟨result, stream₁⟩, s₁⟩ := first
  obtain ⟨hkept, hend⟩ := hpart
  dsimp only at hkept hend
  cases hend with
  | failed hf => exact ⟨hkept, .failed hf⟩
  | same hsame hstream =>
    cases result with
    | error e =>
      refine ⟨hkept, .same ?_ hstream⟩
      rw [acted_bind, hsame]
    | ok a =>
      have hrest := hf a stream₁ s₁ hstream hkept.now
      exact ⟨hkept.trans hrest.1, hrest.2.after hkept.failures (acted_bind_ok hsame g)⟩

theorem streamTracks_ite {c : Prop} [Decidable c] {x' : StreamT σ ExposedRun α}
    {y' : StreamT σ Run α} (h : StreamTracks I P x y) (h' : StreamTracks I P x' y') :
    StreamTracks I P (if c then x else x') (if c then y else y') := by
  by_cases hc : c
  · rwa [if_pos hc, if_pos hc]
  · rwa [if_neg hc, if_neg hc]

theorem streamTracks_onPart {Q : τ → Prop} {x : StreamT τ ExposedRun α} {y : StreamT τ Run α}
    {part : σ → τ} {put : σ → τ → σ} (hpart : ∀ stream, P stream → Q (part stream))
    (hput : ∀ stream t, P stream → Q t → P (put stream t)) (hx : StreamTracks I Q x y) :
    StreamTracks I P (Stream.onPart part put x) (Stream.onPart part put y) := by
  intro stream s hp hs
  have hinner := hx (part stream) s (hpart stream hp) hs
  rw [acted_onPart]
  generalize acted x (part stream) s = done at hinner
  obtain ⟨⟨result, t⟩, s₁⟩ := done
  obtain ⟨hkept, hend⟩ := hinner
  dsimp only at hkept hend
  refine ⟨hkept, ?_⟩
  cases hend with
  | failed hf => exact .failed hf
  | same hsame ht =>
    refine .same ?_ (hput stream t hp ht)
    rw [acted_onPart, hsame]

theorem streamTracks_call (h : ∀ stream w, P stream → I w.volume →
    I (acted y stream w).2.volume ∧ P (acted y stream w).1.2) :
    StreamTracks I P (streamCall y) y := by
  intro stream s hp hs
  rw [acted_call]
  cases hf : s.failure? s.calls with
  | some failure => exact ⟨.next hs, .failed hf⟩
  | none =>
    obtain ⟨hI, hP⟩ := h stream s.world hp hs
    exact ⟨.next hI, .same rfl hP⟩

theorem tracks_orFault (hx : StreamTracks I P x y) {stream : σ} (hp : P stream) :
    Tracks I (Stream.orFault x stream) (Stream.orFault y stream) (fun done => P done.2) := by
  intro s hs
  have hinner := hx stream s hp hs
  rw [ended_orFault]
  generalize acted x stream s = done at hinner
  obtain ⟨⟨result, stream₁⟩, s₁⟩ := done
  obtain ⟨hkept, hend⟩ := hinner
  dsimp only at hkept hend
  cases hend with
  | failed hf => exact ⟨hkept, .failed (.stream hf)⟩
  | same hsame hstream =>
    have hplain := outcome_orFault y stream s.world
    rw [hsame] at hplain
    cases result with
    | error e => exact ⟨hkept, .same hplain (fun b hb => by cases hb)⟩
    | ok a =>
      refine ⟨hkept, .same hplain (fun b hb => ?_)⟩
      cases hb
      exact hstream

end Rules

section Copy

variable [Readable ρ ExposedRun] [Readable ρ Run] [Writable ω ExposedRun] [Writable ω Run]
  {P : ρ → Prop} {Q : ω → Prop}
  (hread : ∀ n, StreamTracks I P (Readable.read n : StreamT ρ ExposedRun _) (Readable.read n))
  (hwrite : ∀ bytes,
    StreamTracks I Q (Writable.write bytes : StreamT ω ExposedRun _) (Writable.write bytes))
  (hflush : StreamTracks I Q (Writable.flush : StreamT ω ExposedRun _) Writable.flush)

include hwrite in
theorem streamTracks_writeAllOr (stuck : IoError) (bytes : List Byte) :
    StreamTracks I Q (Stream.writeAllOr stuck bytes : StreamT ω ExposedRun Unit)
      (Stream.writeAllOr stuck bytes) := by
  induction hn : bytes.length using Nat.strongRecOn generalizing bytes with
  | ind size ih =>
    cases bytes with
    | nil =>
      rw [Stream.writeAllOr, Stream.writeAllOr]
      exact streamTracks_pure ()
    | cons b bs =>
      rw [Stream.writeAllOr, Stream.writeAllOr]
      refine streamTracks_bind (hwrite _) (fun n => ?_)
      cases n with
      | zero => exact streamTracks_throw stuck
      | succ n =>
        refine ih (bs.drop n).length ?_ (bs.drop n) rfl
        rw [List.length_cons] at hn
        rw [List.length_drop]
        omega

include hread hwrite hflush

theorem tracks_copy (fuel : Nat) {r : ρ} {w : ω} (hr : P r) (hw : Q w) :
    Tracks I (Stream.copy fuel r w) (Stream.copy fuel r w) (fun done => Q done.2) := by
  induction fuel generalizing r w with
  | zero => exact tracks_throw _
  | succ fuel ih =>
    refine tracks_bind (tracks_orFault (hread _) hr) (fun done hr' => ?_)
    obtain ⟨piece, r'⟩ := done
    dsimp only at hr' ⊢
    refine tracks_ite ?_ ?_
    · refine tracks_bind (tracks_orFault hflush hw) (fun done hw' => ?_)
      exact tracks_pure hw'
    · refine tracks_bind (tracks_orFault (streamTracks_writeAllOr hwrite _ piece) hw)
        (fun done hw' => ?_)
      exact ih hr' hw'

end Copy

/-- A buffer tracks if the stream behind it does. -/
theorem streamTracks_buffered [Readable ρ ExposedRun] [Readable ρ Run] {P : ρ → Prop}
    (hread : ∀ n, StreamTracks I P (Readable.read n : StreamT ρ ExposedRun _) (Readable.read n))
    (n : Nat) : StreamTracks I (fun b => P b.inner)
      (Readable.read n : StreamT (ReadBuffer ρ) ExposedRun (List Byte)) (Readable.read n) := by
  have hinner : ∀ k, StreamTracks I (fun b : ReadBuffer ρ => P b.inner)
      (ReadBuffer.onInner (Readable.read k : StreamT ρ ExposedRun _))
      (ReadBuffer.onInner (Readable.read k)) :=
    fun k => streamTracks_onPart (fun _ hp => hp) (fun _ _ _ ht => ht) (hread k)
  change StreamTracks I _ (ReadBuffer.read n) (ReadBuffer.read n)
  unfold ReadBuffer.read
  refine streamTracks_get fun b => streamTracks_ite (hinner n) (streamTracks_ite ?_ ?_)
  · exact streamTracks_bind (hinner _) fun rest =>
      streamTracks_bind (streamTracks_modify fun _ hp => hp) fun _ => streamTracks_pure _
  · exact streamTracks_bind (streamTracks_pure _) fun rest =>
      streamTracks_bind (streamTracks_modify fun _ hp => hp) fun _ => streamTracks_pure _

end VolumeFS.Exposed
