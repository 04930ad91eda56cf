import VolumeFS.Proofs.Parallel.Protocol
import VolumeFS.Proofs.Client.Sessions

/-!
# Writing beside others

A stream takes bytes if what is written to it comes after what was written
before, whatever others do between the steps. Buffers around a stream keep
that, and so do counters. What the bytes are written to, and what becomes of
them when others write there too, is up to the predicates.
-/

set_option autoImplicit false

namespace VolumeFS

namespace Protocol

variable {ι W τ σ ω α β : Type} {P : Protocol ι W τ} {i : ι}

/-- The party succeeds in an action on a stream, and what it gets and the stream are as `R` says. -/
def Acts (P : Protocol ι W τ) (i : ι) (R : α → σ → τ → Prop) (x : StreamT σ (Steps W) α) (s : σ)
    (t : τ) : Prop :=
  P.Keeps i (fun done t' => ∃ a, done.1 = .ok a ∧ R a done.2 t') (Stream.act x s) t

section Rules

variable {R Q : α → σ → τ → Prop} {x : StreamT σ (Steps W) α} {s : σ} {t : τ}

theorem acts_pure {a : α} (h : R a s t) : P.Acts i R (pure a) s t := ⟨a, rfl, h⟩

theorem Acts.mono (h : P.Acts i R x s t) (hrq : ∀ a s' t', R a s' t' → Q a s' t') :
    P.Acts i Q x s t :=
  Keeps.mono h fun done t' ⟨a, ha, hr⟩ => ⟨a, ha, hrq a done.2 t' hr⟩

theorem Acts.next {Q : β → σ → τ → Prop} {f : α → StreamT σ (Steps W) β} (h : P.Acts i R x s t)
    (hf : ∀ a s' t', R a s' t' → P.Acts i Q (f a) s' t') : P.Acts i Q (x >>= f) s t := by
  refine Keeps.bind (Keeps.mono h fun done t' hr => ?_)
  obtain ⟨result, s'⟩ := done
  obtain ⟨a, rfl, ha⟩ := hr
  exact hf a s' t' ha

theorem acts_get {Q : β → σ → τ → Prop} {f : σ → StreamT σ (Steps W) β} (h : P.Acts i Q (f s) s t) :
    P.Acts i Q (get >>= f) s t := h

theorem acts_modify {Q : β → σ → τ → Prop} {f : Unit → StreamT σ (Steps W) β} {change : σ → σ}
    (h : P.Acts i Q (f ()) (change s) t) : P.Acts i Q (modify change >>= f) s t := h

theorem acts_last {y : Steps W α} (h : P.Keeps i (fun a t' => R a s t') y t) :
    P.Acts i R (liftM y : StreamT σ (Steps W) α) s t :=
  Keeps.bind (Keeps.bind (h.mono fun a _ ha => ⟨a, rfl, ha⟩))

theorem acts_onPart {ρ : Type} {part : σ → ρ} {put : σ → ρ → σ} {x : StreamT ρ (Steps W) α}
    (h : P.Acts i (fun a p t' => R a (put s p) t') x (part s) t) :
    P.Acts i R (Stream.onPart part put x) s t :=
  Keeps.bind (Keeps.mono h fun _ _ hr => hr)

theorem gives_orFault (h : P.Acts i R x s t) :
    P.Gives i (fun done t' => R done.1 done.2 t') (Stream.orFault x s) t := by
  refine Keeps.bind (Keeps.mono h fun done t' hr => ?_)
  obtain ⟨result, s'⟩ := done
  obtain ⟨a, rfl, ha⟩ := hr
  exact ⟨(a, s'), rfl, ha⟩

end Rules

/-- `Has` tells the bytes that were written to a stream, as long as there is room for them, and
`Wrote` those of a stream that was shut down. -/
structure Takes [Writable ω (Steps W)] (P : Protocol ι W τ) (i : ι) (room : Nat)
    (Has : ω → τ → List Byte → Prop) (Wrote : τ → List Byte → Prop) : Prop where
  write : ∀ {s t data bytes}, data.length + bytes.length ≤ room → Has s t data →
    P.Acts i (fun n s' t' => n ≤ bytes.length ∧ (n = 0 → bytes = []) ∧
      Has s' t' (data ++ bytes.take n)) (Writable.write bytes) s t
  shutdown : ∀ {s t data}, data.length ≤ room → Has s t data →
    P.Acts i (fun _ _ t' => Wrote t' data) Writable.shutdown s t

section Whole

variable [Writable ω (Steps W)] {room : Nat} {Has : ω → τ → List Byte → Prop}
  {Wrote : τ → List Byte → Prop} (h : P.Takes i room Has Wrote)

include h

/-- After some of the bytes were taken there is room for the rest of them. -/
theorem Takes.step {b : Byte} {bs : List Byte} {s : ω} {t : τ} {data : List Byte}
    (hs : Has s t data) (hlen : data.length + (b :: bs).length ≤ room) :
    P.Acts i (fun n s' t' => ∃ k, n = k + 1 ∧ (bs.drop k).length < (b :: bs).length ∧
      Has s' t' (data ++ b :: bs.take k) ∧
      (data ++ b :: bs.take k).length + (bs.drop k).length ≤ room)
      (Writable.write (b :: bs)) s t := by
  refine (h.write hlen hs).mono fun n s' t' hn => ?_
  obtain ⟨hle, hzero, hs'⟩ := hn
  cases n with
  | zero => cases hzero rfl
  | succ k =>
    simp only [List.length_cons, Nat.add_le_add_iff_right] at hle hlen
    refine ⟨k, rfl, ?_, hs', ?_⟩
    · rw [List.length_drop, List.length_cons]
      omega
    · simp only [List.length_append, List.length_cons, List.length_take, List.length_drop]
      omega

theorem Takes.writeAll (stuck : IoError) (bytes : List Byte) {s : ω} {t : τ} {data : List Byte}
    (hs : Has s t data) (hlen : data.length + bytes.length ≤ room) :
    P.Acts i (fun _ s' t' => Has s' t' (data ++ bytes)) (Stream.writeAllOr stuck bytes) s t := by
  induction hn : bytes.length using Nat.strongRecOn generalizing bytes s t data with
  | ind size ih =>
    rw [Stream.writeAllOr.eq_def]
    cases bytes with
    | nil => exact acts_pure (by simpa using hs)
    | cons b bs =>
      refine (h.step hs hlen).next fun n s₁ t₁ hstep => ?_
      obtain ⟨k, rfl, hrest, hs₁, hroom⟩ := hstep
      rw [hn] at hrest
      exact (ih _ hrest (bs.drop k) hs₁ hroom rfl).mono fun _ s₂ t₂ hs₂ => by simpa using hs₂

end Whole

end Protocol

namespace WriteBuffer

open Protocol

variable {ι W τ ω : Type} {P : Protocol ι W τ} {i : ι} [Writable ω (Steps W)] {room : Nat}
  {Has : ω → τ → List Byte → Prop} {Wrote : τ → List Byte → Prop} (h : P.Takes i room Has Wrote)

include h

theorem passOn_beside (bytes : List Byte) {s : ω} {t : τ} {data : List Byte}
    (hs : Has s t data) (hlen : data.length + bytes.length ≤ room) :
    P.Keeps i (fun done t' => done.1 = (.ok (), []) ∧ Has done.2 t' (data ++ bytes))
      ((passOn (m := Steps W) bytes).run s) t := by
  induction hn : bytes.length using Nat.strongRecOn generalizing bytes s t data with
  | ind size ih =>
    rw [passOn.eq_def]
    cases bytes with
    | nil => exact ⟨rfl, by simpa using hs⟩
    | cons b bs =>
      refine Keeps.bind (Keeps.mono (h.step hs hlen) fun done t₁ hstep => ?_)
      obtain ⟨result, s₁⟩ := done
      obtain ⟨_, rfl, k, rfl, hrest, hs₁, hroom⟩ := hstep
      rw [hn] at hrest
      refine (ih _ hrest (bs.drop k) hs₁ hroom rfl).mono fun done t₂ hdone => ?_
      exact ⟨hdone.1, by simpa using hdone.2⟩

theorem drain_beside {b : WriteBuffer ω} {t : τ} {data : List Byte}
    (hb : Holding Has b t data) (hlen : data.length ≤ room) :
    P.Acts i (fun _ b' t' => b'.capacity = b.capacity ∧ b'.held = [] ∧ Has b'.inner t' data)
      drain b t := by
  obtain ⟨passed, rfl, hpassed⟩ := hb
  refine Keeps.bind ((passOn_beside h b.held hpassed (by simpa using hlen)).mono
    fun done t' hdone => ?_)
  obtain ⟨⟨result, held⟩, inner⟩ := done
  obtain ⟨hresult, hs'⟩ := hdone
  cases hresult
  exact ⟨(), rfl, rfl, rfl, hs'⟩

/-- Bytes at least as many as the buffer can hold go past it, once it is empty. -/
theorem take_beside {b : WriteBuffer ω} {t : τ} {data bytes : List Byte} {capacity : Nat}
    (hb : Holding Has b t data) (hempty : capacity ≤ bytes.length → b.held = [])
    (hlen : data.length + bytes.length ≤ room) :
    P.Acts i (fun n b' t' => n ≤ bytes.length ∧ (n = 0 → bytes = []) ∧
        Holding Has b' t' (data ++ bytes.take n))
      (if capacity ≤ bytes.length then onInner (Writable.write bytes) else do
        modify fun b => { b with held := b.held ++ bytes }
        return bytes.length) b t := by
  obtain ⟨passed, rfl, hpassed⟩ := hb
  by_cases hlarge : capacity ≤ bytes.length
  · have hheld := hempty hlarge
    rw [hheld, List.append_nil] at hlen ⊢
    rw [if_pos hlarge]
    refine acts_onPart ((h.write hlen hpassed).mono fun n s' t' hn => ?_)
    exact ⟨hn.1, hn.2.1, passed ++ bytes.take n, by simp [hheld], hn.2.2⟩
  · rw [if_neg hlarge]
    refine acts_modify (acts_pure ⟨Nat.le_refl _, List.length_eq_zero_iff.1, passed, ?_, hpassed⟩)
    simp

theorem takes : P.Takes i room (Holding Has) Wrote where
  write := by
    intro b t data bytes hlen hb
    change P.Acts i _ (WriteBuffer.write bytes) b t
    unfold WriteBuffer.write
    refine acts_get ?_
    by_cases hfull : b.capacity < b.held.length + bytes.length
    · simp only [if_pos hfull]
      refine (drain_beside h hb (by omega)).next fun _ b' t' hdrain => ?_
      exact take_beside h ⟨data, by simp [hdrain.2.1], hdrain.2.2⟩ (fun _ => hdrain.2.1) hlen
    · simp only [if_neg hfull]
      refine take_beside h hb (fun hlarge => ?_) hlen
      exact List.length_eq_zero_iff.1 (by omega)
  shutdown := by
    intro b t data hlen hb
    change P.Acts i _ WriteBuffer.shutdown b t
    unfold WriteBuffer.shutdown
    refine (drain_beside h hb hlen).next fun _ b' t' hdrain => ?_
    exact acts_onPart (h.shutdown hlen hdrain.2.2)

end WriteBuffer

namespace Counted

open Protocol

variable {ι W τ σ : Type} {P : Protocol ι W τ} {i : ι} [MonadStateOf Statistics (StateM W)]

theorem note_beside {R : Unit → Counted σ → τ → Prop} (n : Nat) (total : Statistics → Statistics)
    {c : Counted σ} {t : τ} (hnone : R () c t)
    (hsome : P.Keeps i (fun _ t' => R () { c with count := c.count + UInt64.ofNat n } t')
      (modifyThe Statistics total : Steps W Unit) t) :
    P.Acts i R (note n total) c t := by
  unfold note
  split_ifs
  · exact acts_last hsome
  · exact acts_pure hnone

variable [Writable σ (Steps W)] {room : Nat} {Has : σ → τ → List Byte → Prop}
  {Wrote : τ → List Byte → Prop}

/-- Nobody minds that something is counted. -/
theorem takes (h : P.Takes i room Has Wrote)
    (hcount : ∀ {total s t data}, Has s t data → P.Keeps i (fun _ t' => Has s t' data)
      (modifyThe Statistics total : Steps W Unit) t) :
    P.Takes i room (fun c : Counted σ => Has c.inner) Wrote where
  write := by
    intro c t data bytes hlen hc
    change P.Acts i _ (Counted.write bytes) c t
    unfold Counted.write
    have hinner : P.Acts i (fun n c' t' => n ≤ bytes.length ∧ (n = 0 → bytes = []) ∧
        Has c'.inner t' (data ++ bytes.take n)) (onInner (Writable.write bytes)) c t :=
      acts_onPart (h.write hlen hc)
    refine hinner.next fun n c' t' hn => ?_
    have hnote : P.Acts i (fun _ c'' t'' => Has c''.inner t'' (data ++ bytes.take n))
        (note n fun s => (s.addBytesWritten (UInt64.ofNat n)).addWriteOp) c' t' :=
      note_beside n _ hn.2.2 (hcount hn.2.2)
    exact hnote.next fun _ _ _ ht => acts_pure ⟨hn.1, hn.2.1, ht⟩
  shutdown := by
    intro c t data hlen hc
    change P.Acts i _ (onInner Writable.shutdown) c t
    exact acts_onPart (h.shutdown hlen hc)

end Counted

namespace OutputStream

open Protocol

variable {ι W τ ω : Type} {P : Protocol ι W τ} {i : ι} [MonadStateOf Statistics (StateM W)]
  [Writable ω (Steps W)] {room : Nat} {Has : Counted ω → τ → List Byte → Prop}
  {Wrote : τ → List Byte → Prop} (h : P.Takes i room Has Wrote)

include h

theorem writeAll_beside (bytes : List Byte) {s : OutputStream ω} {t : τ} {data : List Byte}
    (hs : Has s.writer t data) (hlen : data.length + bytes.length ≤ room) :
    P.Acts i (fun _ s' t' => Has s'.writer t' (data ++ bytes)) (writeAll bytes) s t := by
  unfold writeAll onWriter
  exact acts_onPart (h.writeAll _ bytes hs hlen)

theorem writeEach_beside (chunks : List (List Byte)) {s : OutputStream ω} {t : τ}
    {data : List Byte} (hs : Has s.writer t data)
    (hlen : data.length + chunks.flatten.length ≤ room) :
    P.Acts i (fun _ s' t' => Has s'.writer t' (data ++ chunks.flatten)) (writeEach chunks) s t := by
  induction chunks generalizing s t data with
  | nil => exact acts_pure (by simpa using hs)
  | cons chunk chunks ih =>
    rw [List.flatten_cons, List.length_append] at hlen
    refine (writeAll_beside h chunk hs (by omega)).next fun _ s₁ t₁ hs₁ => ?_
    refine (ih hs₁ ?_).mono fun _ s₂ t₂ hs₂ => by simpa using hs₂
    rw [List.length_append]
    omega

theorem close_beside {s : OutputStream ω} {t : τ} {data : List Byte} (hs : Has s.writer t data)
    (hlen : data.length ≤ room) : P.Acts i (fun _ _ t' => Wrote t' data) close s t := by
  unfold close onWriter
  exact acts_onPart (h.shutdown hlen hs)

end OutputStream

end VolumeFS
