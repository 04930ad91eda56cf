import VolumeFS.Proofs.Run

/-!
# Bytes through buffers and counters

A stream delivers if reading it hands out what is left of it, piece by piece, and
it accepts if what is written to it comes after what was written before. Buffers
around a stream keep both, and so do counters, which count each byte once. What
else is known of the stream and of its world is up to the predicates.
-/

set_option autoImplicit false

namespace VolumeFS

variable {W : Type}

namespace Stream

variable {ρ ω : Type}

/-- `Left` tells the bytes that a stream has still to hand out. -/
structure Delivers [Readable ρ (StateM W)] (Left : ρ → W → List Byte → Prop) : Prop where
  read : ∀ {r w bytes n}, 0 < n → Left r w bytes →
    ∃ piece rest r' w', acted (Readable.read n) r w = ((.ok piece, r'), w') ∧
      bytes = piece ++ rest ∧ (piece = [] → rest = []) ∧ Left r' w' rest

/-- `Has` tells the bytes that were written to a stream, as long as there is room for them, and
`Wrote` those of a stream that was shut down. -/
structure Accepts [Writable ω (StateM W)] (room : Nat) (Has : ω → W → List Byte → Prop)
    (Wrote : W → List Byte → Prop) : Prop where
  write : ∀ {s w data bytes}, data.length + bytes.length ≤ room → Has s w data →
    ∃ n s' w', acted (Writable.write bytes) s w = ((.ok n, s'), w') ∧ n ≤ bytes.length ∧
      (n = 0 → bytes = []) ∧ Has s' w' (data ++ bytes.take n)
  flush : ∀ {s w data}, data.length ≤ room → Has s w data →
    ∃ s' w', acted Writable.flush s w = ((.ok (), s'), w') ∧ Has s' w' data
  shutdown : ∀ {s w data}, data.length ≤ room → Has s w data →
    ∃ s' w', acted Writable.shutdown s w = ((.ok (), s'), w') ∧ Wrote w' data

theorem Delivers.of_iff [Readable ρ (StateM W)] {Left Left' : ρ → W → List Byte → Prop}
    (h : Delivers Left) (hiff : ∀ r w bytes, Left r w bytes ↔ Left' r w bytes) :
    Delivers Left' := by
  obtain rfl : Left = Left' := funext fun r => funext fun w => funext fun bytes =>
    propext (hiff r w bytes)
  exact h

section Whole

variable [Writable ω (StateM W)] {room : Nat} {Has : ω → W → List Byte → Prop}
  {Wrote : W → List Byte → Prop} (h : Accepts room Has Wrote)

include h

theorem Accepts.of_iff {Has' : ω → W → List Byte → Prop} {Wrote' : W → List Byte → Prop}
    (hiff : ∀ s w data, Has s w data ↔ Has' s w data)
    (hwrote : ∀ w data, Wrote w data ↔ Wrote' w data) : Accepts room Has' Wrote' := by
  obtain rfl : Has = Has' := funext fun s => funext fun w => funext fun data =>
    propext (hiff s w data)
  obtain rfl : Wrote = Wrote' := funext fun w => funext fun data => propext (hwrote w data)
  exact h

/-- After some of the bytes were taken there is room for the rest of them. -/
theorem Accepts.step {b : Byte} {bs : List Byte} {s : ω} {w : W} {data : List Byte}
    (hs : Has s w data) (hlen : data.length + (b :: bs).length ≤ room) :
    ∃ n s' w', acted (Writable.write (b :: bs)) s w = ((.ok (n + 1), s'), w') ∧
      (bs.drop n).length < (b :: bs).length ∧ Has s' w' (data ++ b :: bs.take n) ∧
      (data ++ b :: bs.take n).length + (bs.drop n).length ≤ room := by
  obtain ⟨n, s', w', hwrite, hle, hzero, hs'⟩ := h.write hlen hs
  cases n with
  | zero => cases hzero rfl
  | succ n =>
    simp only [List.length_cons, Nat.add_le_add_iff_right] at hle hlen
    refine ⟨n, s', w', hwrite, ?_, hs', ?_⟩
    · rw [List.length_drop, List.length_cons]
      omega
    · simp only [List.length_append, List.length_cons, List.length_take, List.length_drop]
      omega

theorem Accepts.writeAll (stuck : IoError) (bytes : List Byte) {s : ω} {w : W} {data : List Byte}
    (hs : Has s w data) (hlen : data.length + bytes.length ≤ room) :
    ∃ s' w', acted (writeAllOr stuck bytes) s w = ((.ok (), s'), w') ∧
      Has s' w' (data ++ bytes) := by
  induction hn : bytes.length using Nat.strongRecOn generalizing bytes s w data with
  | ind size ih =>
    cases bytes with
    | nil => exact ⟨s, w, by rw [writeAllOr, acted_pure], by simpa using hs⟩
    | cons b bs =>
      obtain ⟨n, s₁, w₁, hwrite, hrest, hs₁, hroom⟩ := h.step hs hlen
      rw [hn] at hrest
      obtain ⟨s₂, w₂, hall, hs₂⟩ := ih _ hrest (bs.drop n) hs₁ hroom rfl
      refine ⟨s₂, w₂, ?_, by simpa using hs₂⟩
      rw [writeAllOr, acted_bind_ok hwrite]
      exact hall

end Whole

end Stream

namespace ReadBuffer

variable {ρ : Type} {Left : ρ → W → List Byte → Prop}

def Behind (Left : ρ → W → List Byte → Prop) (b : ReadBuffer ρ) (w : W) (bytes : List Byte) :
    Prop :=
  ∃ rest, bytes = b.rest ++ rest ∧ Left b.inner w rest

theorem behind_fresh {r : ρ} {w : W} {bytes : List Byte} (h : Left r w bytes)
    (capacity : Nat) : Behind Left (.ofCapacity capacity r) w bytes :=
  ⟨bytes, rfl, h⟩

theorem delivers [Readable ρ (StateM W)] (h : Stream.Delivers Left) :
    Stream.Delivers (Behind Left) where
  read := by
    rintro b w bytes n hn ⟨behind, rfl, hbehind⟩
    change ∃ piece rest r' w', acted (ReadBuffer.read n) b w = _ ∧ _
    unfold ReadBuffer.read
    simp only [acted_get_bind]
    by_cases hdirect : (b.rest.isEmpty && decide (b.capacity ≤ n)) = true
    · simp only [if_pos hdirect]
      simp only [Bool.and_eq_true, List.isEmpty_iff, decide_eq_true_eq] at hdirect
      obtain ⟨piece, rest, r', w', hread, rfl, hend, hrest⟩ := h.read hn hbehind
      refine ⟨piece, rest, { b with inner := r' }, w', ?_, by simp [hdirect.1], hend,
        ⟨rest, by simp [hdirect.1], hrest⟩⟩
      rw [onInner, acted_onPart, hread]
    · simp only [if_neg hdirect]
      by_cases hempty : b.rest.isEmpty = true
      · simp only [if_pos hempty]
        simp only [hempty, Bool.true_and, decide_eq_true_eq] at hdirect
        rw [List.isEmpty_iff] at hempty
        obtain ⟨piece, rest, r', w', hread, rfl, hend, hrest⟩ :=
          h.read (n := b.capacity) (by omega) hbehind
        have hfetch : acted (onInner (Readable.read b.capacity)) b w =
            ((.ok piece, { b with inner := r' }), w') := by
          rw [onInner, acted_onPart, hread]
        refine ⟨piece.take n, piece.drop n ++ rest, ⟨r', b.capacity, piece.drop n⟩, w', ?_, ?_,
          ?_, ⟨rest, rfl, hrest⟩⟩
        · rw [acted_bind_ok hfetch]
          rfl
        · rw [hempty, List.nil_append, ← List.append_assoc, List.take_append_drop]
        · intro hnone
          have hpiece : piece = [] := by
            rcases List.take_eq_nil_iff.1 hnone with h0 | hpiece
            · omega
            · exact hpiece
          simp [hpiece, hend hpiece]
      · simp only [if_neg hempty]
        refine ⟨b.rest.take n, b.rest.drop n ++ behind, ⟨b.inner, b.capacity, b.rest.drop n⟩, w,
          rfl, ?_, ?_, ⟨behind, rfl, hbehind⟩⟩
        · rw [← List.append_assoc, List.take_append_drop]
        · intro hnone
          rcases List.take_eq_nil_iff.1 hnone with h0 | hrest
          · omega
          · simp [hrest] at hempty

end ReadBuffer

namespace WriteBuffer

variable {ω : Type} {Has : ω → W → List Byte → Prop} {Wrote : W → List Byte → Prop}

def Holding (Has : ω → W → List Byte → Prop) (b : WriteBuffer ω) (w : W) (data : List Byte) :
    Prop :=
  ∃ passed, data = passed ++ b.held ∧ Has b.inner w passed

theorem holding_fresh {s : ω} {w : W} {data : List Byte} (h : Has s w data)
    (capacity : Nat) : Holding Has (.ofCapacity capacity s) w data :=
  ⟨data, by simp [ofCapacity], h⟩

variable [Writable ω (StateM W)] {room : Nat} (h : Stream.Accepts room Has Wrote)

theorem passOn_cons (b : Byte) (bs : List Byte) (s : ω) (w : W) :
    (passOn (m := StateM W) (b :: bs)).run s w =
      match acted (Writable.write (b :: bs)) s w with
      | ((.error e, s'), w') => (((.error e, b :: bs), s'), w')
      | ((.ok 0, s'), w') =>
        (((.error (.custom .writeZero "failed to write the buffered data"), b :: bs), s'), w')
      | ((.ok (n + 1), s'), w') => (passOn (m := StateM W) (bs.drop n)).run s' w' := by
  rw [passOn]
  unfold acted Stream.act
  simp only [StateT.run, bind, StateT.bind]
  rcases (Writable.write (b :: bs) : StreamT ω (StateM W) Nat).run s w with ⟨⟨_ | n, s'⟩, w'⟩
  · rfl
  · cases n <;> rfl

include h

theorem passOn_all (bytes : List Byte) {s : ω} {w : W} {data : List Byte} (hs : Has s w data)
    (hlen : data.length + bytes.length ≤ room) :
    ∃ s' w', (passOn (m := StateM W) bytes).run s w = (((.ok (), []), s'), w') ∧
      Has s' w' (data ++ bytes) := by
  induction hn : bytes.length using Nat.strongRecOn generalizing bytes s w data with
  | ind size ih =>
    cases bytes with
    | nil => exact ⟨s, w, by rw [passOn]; rfl, by simpa using hs⟩
    | cons b bs =>
      obtain ⟨n, s₁, w₁, hwrite, hrest, hs₁, hroom⟩ := h.step hs hlen
      rw [hn] at hrest
      obtain ⟨s₂, w₂, hall, hs₂⟩ := ih _ hrest (bs.drop n) hs₁ hroom rfl
      refine ⟨s₂, w₂, ?_, by simpa using hs₂⟩
      rw [passOn_cons, hwrite]
      exact hall

theorem drain_outcome {b : WriteBuffer ω} {w : W} {data : List Byte}
    (hb : Holding Has b w data) (hlen : data.length ≤ room) :
    ∃ s' w', acted drain b w = ((.ok (), ⟨s', b.capacity, []⟩), w') ∧ Has s' w' data := by
  obtain ⟨passed, rfl, hpassed⟩ := hb
  obtain ⟨s', w', hall, hs'⟩ := passOn_all h b.held hpassed (by simpa using hlen)
  refine ⟨s', w', ?_, hs'⟩
  unfold acted Stream.act drain
  simp only [ExceptT.run_mk, StateT.run, bind, StateT.bind] at hall ⊢
  change (fun x : ((Except IoError Unit × List Byte) × ω) × W =>
    ((x.1.1.1, { b with inner := x.1.2, held := x.1.1.2 }), x.2))
      (passOn (m := StateM W) b.held b.inner w) = _
  rw [hall]

/-- Bytes at least as many as the buffer can hold go past it, once it is empty. -/
theorem take_outcome {b : WriteBuffer ω} {w : W} {data bytes : List Byte}
    (hb : Holding Has b w data) (hempty : b.capacity ≤ bytes.length → b.held = [])
    (hlen : data.length + bytes.length ≤ room) :
    ∃ n s' w', acted (if b.capacity ≤ bytes.length then onInner (Writable.write bytes) else do
        modify fun b => { b with held := b.held ++ bytes }
        return bytes.length) b w = ((.ok n, s'), w') ∧ n ≤ bytes.length ∧
      (n = 0 → bytes = []) ∧ Holding Has s' w' (data ++ bytes.take n) := by
  obtain ⟨passed, rfl, hpassed⟩ := hb
  by_cases hlarge : b.capacity ≤ bytes.length
  · have hheld := hempty hlarge
    rw [hheld, List.append_nil] at hlen ⊢
    obtain ⟨n, s', w', hwrite, hle, hzero, hs'⟩ := h.write hlen hpassed
    refine ⟨n, { b with inner := s' }, w', ?_, hle, hzero, ⟨_, by simp [hheld], hs'⟩⟩
    rw [if_pos hlarge, onInner, acted_onPart, hwrite]
  · refine ⟨bytes.length, { b with held := b.held ++ bytes }, w, ?_, Nat.le_refl _, ?_,
      ⟨passed, by simp, hpassed⟩⟩
    · rw [if_neg hlarge]
      rfl
    · exact List.length_eq_zero_iff.1

theorem accepts : Stream.Accepts room (Holding Has) Wrote where
  write := by
    intro b w data bytes hlen hb
    change ∃ n s' w', acted (WriteBuffer.write bytes) b w = _ ∧ _
    unfold WriteBuffer.write
    simp only [acted_get_bind]
    by_cases hfull : b.capacity < b.held.length + bytes.length
    · obtain ⟨s₁, w₁, hdrain, hs₁⟩ := drain_outcome h hb (by omega)
      simp only [if_pos hfull]
      rw [acted_bind_ok hdrain]
      exact take_outcome h (b := ⟨s₁, b.capacity, []⟩) ⟨data, by simp, hs₁⟩ (fun _ => rfl) hlen
    · simp only [if_neg hfull]
      refine take_outcome h hb (fun hlarge => ?_) hlen
      exact List.length_eq_zero_iff.1 (by omega)
  flush := by
    intro b w data hlen hb
    obtain ⟨s₁, w₁, hdrain, hs₁⟩ := drain_outcome h hb hlen
    obtain ⟨s₂, w₂, hflush, hs₂⟩ := h.flush hlen hs₁
    refine ⟨⟨s₂, b.capacity, []⟩, w₂, ?_, ⟨data, by simp, hs₂⟩⟩
    change acted WriteBuffer.flush b w = _
    unfold WriteBuffer.flush
    rw [acted_bind_ok hdrain, onInner, acted_onPart, hflush]
  shutdown := by
    intro b w data hlen hb
    obtain ⟨s₁, w₁, hdrain, hs₁⟩ := drain_outcome h hb hlen
    obtain ⟨s₂, w₂, hshut, hs₂⟩ := h.shutdown hlen hs₁
    refine ⟨⟨s₂, b.capacity, []⟩, w₂, ?_, hs₂⟩
    change acted WriteBuffer.shutdown b w = _
    unfold WriteBuffer.shutdown
    rw [acted_bind_ok hdrain, onInner, acted_onPart, hshut]

end WriteBuffer

namespace Counted

variable {σ : Type} [MonadStateOf Statistics (StateM W)]

def tallied (f : Statistics → Statistics) (w : W) : W :=
  ((modifyThe Statistics f : StateM W Unit) w).2

theorem note_outcome (n : Nat) (total : Statistics → Statistics) (c : Counted σ) (w : W) :
    ∃ w', acted (note n total) c w = ((.ok (), { c with count := c.count + UInt64.ofNat n }), w') ∧
      w' = if n = 0 then w else tallied total w := by
  refine ⟨_, ?_, rfl⟩
  unfold note
  cases n with
  | zero =>
    have hcount : c.count + UInt64.ofNat 0 = c.count := UInt64.add_zero c.count
    rw [if_neg (by simp), hcount]
    rfl
  | succ n => rfl

/-- What was written so far was counted, each byte once. `Has` is told the statistics. -/
def Tallying (Has : Statistics → σ → W → List Byte → Prop) (before : Statistics) (c : Counted σ)
    (w : W) (data : List Byte) : Prop :=
  c.count = UInt64.ofNat data.length ∧ ∃ now, Has now c.inner w data ∧
    now.bytesRead = before.bytesRead ∧
    now.bytesWritten = before.bytesWritten + UInt64.ofNat data.length

/-- What a stream that counted wrote until it was shut down. -/
def Tallied (Wrote : Statistics → W → List Byte → Prop) (before : Statistics) (w : W)
    (data : List Byte) : Prop :=
  ∃ now, Wrote now w data ∧ now.bytesRead = before.bytesRead ∧
    now.bytesWritten = before.bytesWritten + UInt64.ofNat data.length

omit [MonadStateOf Statistics (StateM W)] in
theorem tallying_fresh {Has : Statistics → σ → W → List Byte → Prop} {before : Statistics} {s : σ}
    {w : W} (h : Has before s w []) : Tallying Has before (.start s) w [] :=
  ⟨rfl, before, h, rfl, (UInt64.add_zero _).symm⟩

theorem accepts [Writable σ (StateM W)] {room : Nat}
    {Has : Statistics → σ → W → List Byte → Prop} {Wrote : Statistics → W → List Byte → Prop}
    (h : ∀ now, Stream.Accepts room (Has now) (Wrote now))
    (hcount : ∀ {now f s w data}, Has now s w data → Has (f now) s (tallied f w) data)
    (before : Statistics) :
    Stream.Accepts room (Tallying Has before) (Tallied Wrote before) where
  write := by
    rintro c w data bytes hlen ⟨hown, now, hdata, hread, hwritten⟩
    obtain ⟨n, s', w', hwrite, hle, hzero, hs'⟩ := (h now).write hlen hdata
    have hinner : acted (onInner (Writable.write bytes)) c w =
        ((.ok n, { c with inner := s' }), w') := by
      rw [onInner, acted_onPart, hwrite]
    have hsize : UInt64.ofNat (data ++ bytes.take n).length =
        UInt64.ofNat data.length + UInt64.ofNat n := by
      rw [List.length_append, List.length_take, Nat.min_eq_left hle, UInt64.ofNat_add]
    obtain ⟨w₂, hnote, hw₂⟩ := note_outcome n
      (fun s => (s.addBytesWritten (UInt64.ofNat n)).addWriteOp) { c with inner := s' } w'
    refine ⟨n, ⟨s', c.count + UInt64.ofNat n⟩, w₂, ?_, hle, hzero, ?_, ?_⟩
    · change acted (Counted.write bytes) c w = _
      unfold Counted.write
      rw [acted_bind_ok hinner, acted_bind_ok hnote]
      rfl
    · rw [hown, hsize]
    · cases n with
      | zero =>
        subst hw₂
        exact ⟨now, hs', hread, by simpa using hwritten⟩
      | succ n =>
        subst hw₂
        refine ⟨_, hcount hs', hread, ?_⟩
        rw [hsize, ← UInt64.add_assoc, ← hwritten]
        rfl
  flush := by
    rintro c w data hlen ⟨hown, now, hdata, htally⟩
    obtain ⟨s', w', hflush, hs'⟩ := (h now).flush hlen hdata
    refine ⟨{ c with inner := s' }, w', ?_, hown, now, hs', htally⟩
    change acted (onInner Writable.flush) c w = _
    rw [onInner, acted_onPart, hflush]
  shutdown := by
    rintro c w data hlen ⟨-, now, hdata, htally⟩
    obtain ⟨s', w', hshut, hw'⟩ := (h now).shutdown hlen hdata
    refine ⟨{ c with inner := s' }, w', ?_, now, hw', htally⟩
    change acted (onInner Writable.shutdown) c w = _
    rw [onInner, acted_onPart, hshut]

/-- What was handed out so far of all bytes was counted, each byte once. -/
def Told (Left : Statistics → σ → W → List Byte → Prop) (before : Statistics) (all : List Byte)
    (c : Counted σ) (w : W) (rest : List Byte) : Prop :=
  ∃ now seen, all = seen ++ rest ∧ Left now c.inner w rest ∧
    now.bytesRead = before.bytesRead + UInt64.ofNat seen.length ∧
    now.bytesWritten = before.bytesWritten

omit [MonadStateOf Statistics (StateM W)] in
theorem told_fresh {Left : Statistics → σ → W → List Byte → Prop} {before : Statistics}
    {c : Counted σ} {w : W} {all : List Byte} (h : Left before c.inner w all) :
    Told Left before all c w all :=
  ⟨before, [], rfl, h, (UInt64.add_zero _).symm, rfl⟩

theorem delivers [Readable σ (StateM W)] {Left : Statistics → σ → W → List Byte → Prop}
    (h : ∀ now, Stream.Delivers (Left now))
    (hcount : ∀ {now f s w rest}, Left now s w rest → Left (f now) s (tallied f w) rest)
    (before : Statistics) (all : List Byte) : Stream.Delivers (Told Left before all) where
  read := by
    rintro c w bytes n hn ⟨now, seen, rfl, hleft, hread, hwritten⟩
    obtain ⟨piece, rest, r', w', hpiece, rfl, hend, hrest⟩ := (h now).read hn hleft
    have hinner : acted (onInner (Readable.read n)) c w =
        ((.ok piece, { c with inner := r' }), w') := by
      rw [onInner, acted_onPart, hpiece]
    obtain ⟨w₂, hnote, hw₂⟩ := note_outcome piece.length
      (fun s => (s.addBytesRead (UInt64.ofNat piece.length)).addReadOp) { c with inner := r' } w'
    refine ⟨piece, rest, ⟨r', c.count + UInt64.ofNat piece.length⟩, w₂, ?_, rfl, hend, ?_⟩
    · change acted (Counted.read n) c w = _
      unfold Counted.read
      rw [acted_bind_ok hinner, acted_bind_ok hnote]
      rfl
    · have hsize : UInt64.ofNat (seen ++ piece).length =
          UInt64.ofNat seen.length + UInt64.ofNat piece.length := by
        rw [List.length_append, UInt64.ofNat_add]
      cases piece with
      | nil =>
        subst hw₂
        exact ⟨now, seen, by simp, hrest, hread, hwritten⟩
      | cons b bs =>
        subst hw₂
        refine ⟨_, seen ++ b :: bs, by simp, hcount hrest, ?_, hwritten⟩
        rw [hsize, ← UInt64.add_assoc, ← hread]
        rfl

end Counted

namespace OutputStream

variable {ω : Type} [MonadStateOf Statistics (StateM W)] [Writable ω (StateM W)] {room : Nat}
  {Has : Counted ω → W → List Byte → Prop} {Wrote : W → List Byte → Prop}
  (h : Stream.Accepts room Has Wrote) {s : OutputStream ω} {w : W} {data : List Byte}

include h

theorem writeAll_outcome (hs : Has s.writer w data) (bytes : List Byte)
    (hlen : data.length + bytes.length ≤ room) :
    ∃ s' w', acted (writeAll bytes) s w = ((.ok (), s'), w') ∧
      Has s'.writer w' (data ++ bytes) := by
  obtain ⟨writer, w', hall, hwriter⟩ := h.writeAll (.bare .writeZero) bytes hs hlen
  refine ⟨{ s with writer }, w', ?_, hwriter⟩
  rw [writeAll, onWriter, acted_onPart, Stream.writeAll, hall]

theorem close_outcome (hs : Has s.writer w data) (hlen : data.length ≤ room) :
    ∃ s' w', acted close s w = ((.ok (), s'), w') ∧ Wrote w' data := by
  obtain ⟨writer, w', hshut, hw'⟩ := h.shutdown hlen hs
  refine ⟨{ s with writer }, w', ?_, hw'⟩
  rw [close, onWriter, acted_onPart, hshut]

end OutputStream

theorem InputStream.read_outcome {ρ : Type} [MonadStateOf Statistics (StateM W)]
    [Readable ρ (StateM W)] {Left : Counted ρ → W → List Byte → Prop} (h : Stream.Delivers Left)
    {s : InputStream ρ} {w : W} {bytes : List Byte} {n : Nat} (hn : 0 < n)
    (hs : Left s.reader w bytes) :
    ∃ piece rest s' w', acted (InputStream.read n) s w = ((.ok piece, s'), w') ∧
      bytes = piece ++ rest ∧ (piece = [] → rest = []) ∧ Left s'.reader w' rest := by
  obtain ⟨piece, rest, reader, w', hread, hsplit, hend, hrest⟩ := h.read hn hs
  refine ⟨piece, rest, { s with reader }, w', ?_, hsplit, hend, hrest⟩
  rw [InputStream.read, InputStream.onReader, acted_onPart, hread]

end VolumeFS
