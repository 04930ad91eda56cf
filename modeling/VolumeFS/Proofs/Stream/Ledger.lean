import VolumeFS.Proofs.Stream.Accepts

/-!
# Who moved how many bytes

Streams of any kind, each behind a counter, share the statistics. A ledger keeps
these apart from what the streams themselves act on, and it is noted there how
many bytes each single read or write behind a counter moved. A call tells just
what it moved: to the count of its stream, and to the statistics of its
direction.
-/

set_option autoImplicit false

namespace VolumeFS.Shared

/-- The statistics, all that the streams themselves act on, and what was noted, latest first. -/
structure Ledger (W : Type) where
  statistics : Statistics
  outside : W
  reads : List Nat
  writes : List Nat

instance {W : Type} : MonadStateOf Statistics (StateM (Ledger W)) where
  get := fun l => (l.statistics, l)
  set statistics := fun l => ((), { l with statistics })
  modifyGet f := fun l =>
    ((f l.statistics).1, { l with statistics := (f l.statistics).2 })

def moved : Except IoError Nat → Nat
  | .ok n => n
  | .error _ => 0

inductive Direction where
  | reading
  | writing
  deriving DecidableEq

namespace Direction

variable {W : Type}

def bytes : Direction → Statistics → UInt64
  | .reading => Statistics.bytesRead
  | .writing => Statistics.bytesWritten

def ops : Direction → Statistics → UInt64
  | .reading => Statistics.readOps
  | .writing => Statistics.writeOps

def noted : Direction → Ledger W → List Nat
  | .reading => Ledger.reads
  | .writing => Ledger.writes

def note (d : Direction) (n : Nat) (l : Ledger W) : Ledger W :=
  match d with
  | .reading => { l with reads := n :: l.reads }
  | .writing => { l with writes := n :: l.writes }

def tally (d : Direction) (n : Nat) (s : Statistics) : Statistics :=
  match d with
  | .reading => (s.addBytesRead (UInt64.ofNat n)).addReadOp
  | .writing => (s.addBytesWritten (UInt64.ofNat n)).addWriteOp

@[simp] theorem bytes_tally (d : Direction) (n : Nat) (s : Statistics) :
    d.bytes (d.tally n s) = d.bytes s + UInt64.ofNat n := by
  cases d <;> rfl

@[simp] theorem ops_tally (d : Direction) (n : Nat) (s : Statistics) :
    d.ops (d.tally n s) = d.ops s + 1 := by
  cases d <;> rfl

@[simp] theorem noted_note (d : Direction) (n : Nat) (l : Ledger W) :
    d.noted (d.note n l) = n :: d.noted l := by
  cases d <;> rfl

@[simp] theorem statistics_note (d : Direction) (n : Nat) (l : Ledger W) :
    (d.note n l).statistics = l.statistics := by
  cases d <;> rfl

section Other

variable {d d' : Direction} (h : d' ≠ d)

include h

theorem bytes_tally_other (n : Nat) (s : Statistics) : d'.bytes (d.tally n s) = d'.bytes s := by
  cases d <;> cases d' <;> first | exact absurd rfl h | rfl

theorem ops_tally_other (n : Nat) (s : Statistics) : d'.ops (d.tally n s) = d'.ops s := by
  cases d <;> cases d' <;> first | exact absurd rfl h | rfl

theorem noted_note_other (n : Nat) (l : Ledger W) : d'.noted (d.note n l) = d'.noted l := by
  cases d <;> cases d' <;> first | exact absurd rfl h | rfl

end Other

end Direction

/-- A stream with a world of its own, the reads and writes of which are noted. -/
structure Noted (σ : Type) where
  stream : σ

namespace Noted

variable {σ W α : Type}

def through (x : StreamT σ (StateM W) α) (note : Except IoError α → Ledger W → Ledger W) :
    StreamT (Noted σ) (StateM (Ledger W)) α :=
  ExceptT.mk fun s l =>
    let ((result, stream), outside) := Stream.act x s.stream l.outside
    ((result, ⟨stream⟩), note result { l with outside })

def move (d : Direction) (size : α → Nat) (x : StreamT σ (StateM W) α) :
    StreamT (Noted σ) (StateM (Ledger W)) α :=
  through x fun result => d.note (moved (result.map size))

def rest (x : StreamT σ (StateM W) α) : StreamT (Noted σ) (StateM (Ledger W)) α :=
  through x fun _ l => l

end Noted

instance {ρ W : Type} [Readable ρ (StateM W)] : Readable (Noted ρ) (StateM (Ledger W)) where
  read n := Noted.move .reading List.length (Readable.read n)
  seek place := Noted.rest (Readable.seek place)

instance {ω W : Type} [Writable ω (StateM W)] : Writable (Noted ω) (StateM (Ledger W)) where
  write bytes := Noted.move .writing id (Writable.write bytes)
  flush := Noted.rest Writable.flush
  shutdown := Noted.rest Writable.shutdown

section Telling

variable {σ τ W α β : Type}

/-- Between two moments a stream moved `n` bytes, and this is told wherever it has to be. -/
structure Tells (d : Direction) (count : σ → UInt64) (n : Nat) (s : σ) (l : Ledger W) (s' : σ)
    (l' : Ledger W) : Prop where
  own : count s' = count s + UInt64.ofNat n
  bytes : d.bytes l'.statistics = d.bytes l.statistics + UInt64.ofNat n
  ops : ∃ new, d.noted l' = new ++ d.noted l ∧
    d.ops l'.statistics = d.ops l.statistics + UInt64.ofNat (new.countP (0 < ·))
  other : ∀ d', d' ≠ d → d'.bytes l'.statistics = d'.bytes l.statistics ∧
    d'.ops l'.statistics = d'.ops l.statistics ∧ d'.noted l' = d'.noted l
  still : n = 0 → l'.statistics = l.statistics

/-- The action tells what it moves: as many bytes as the size of what it returns. -/
def Telling (d : Direction) (count : σ → UInt64) (size : α → Nat)
    (x : StreamT σ (StateM (Ledger W)) α) : Prop :=
  ∀ ⦃s l result s' l'⦄, acted x s l = ((result, s'), l') →
    Tells d count (moved (result.map size)) s l s' l'

variable {d : Direction} {count : σ → UInt64} {size : α → Nat}

theorem tells_nothing {s s' : σ} {l l' : Ledger W} (hcount : count s' = count s)
    (hstatistics : l'.statistics = l.statistics)
    (hnoted : ∀ d' : Direction, d'.noted l' = d'.noted l) : Tells d count 0 s l s' l' where
  own := hcount.trans (UInt64.add_zero _).symm
  bytes := by rw [hstatistics]; exact (UInt64.add_zero _).symm
  ops := ⟨[], hnoted d, by rw [hstatistics]; exact (UInt64.add_zero _).symm⟩
  other d' _ := by rw [hstatistics]; exact ⟨rfl, rfl, hnoted d'⟩
  still _ := hstatistics

theorem Tells.trans {n n' : Nat} {s s₁ s₂ : σ} {l l₁ l₂ : Ledger W}
    (h : Tells d count n s l s₁ l₁) (h' : Tells d count n' s₁ l₁ s₂ l₂) :
    Tells d count (n + n') s l s₂ l₂ where
  own := by rw [h'.own, h.own, UInt64.ofNat_add, UInt64.add_assoc]
  bytes := by rw [h'.bytes, h.bytes, UInt64.ofNat_add, UInt64.add_assoc]
  ops := by
    obtain ⟨new, hnoted, hops⟩ := h.ops
    obtain ⟨new', hnoted', hops'⟩ := h'.ops
    refine ⟨new' ++ new, by rw [hnoted', hnoted, List.append_assoc], ?_⟩
    rw [hops', hops, List.countP_append, Nat.add_comm, UInt64.ofNat_add, UInt64.add_assoc]
  other d' hd := by
    obtain ⟨hbytes, hops, hnoted⟩ := h.other d' hd
    obtain ⟨hbytes', hops', hnoted'⟩ := h'.other d' hd
    exact ⟨hbytes'.trans hbytes, hops'.trans hops, hnoted'.trans hnoted⟩
  still hn := by
    rw [h'.still (by omega), h.still (by omega)]

theorem telling_pure {a : α} (h : size a = 0) :
    Telling (W := W) d count size (pure a) := by
  intro s l result s' l' hrun
  cases hrun
  change Tells d count (size a) s l s l
  rw [h]
  exact tells_nothing rfl rfl fun _ => rfl

theorem telling_bind {size' : β → Nat} {x : StreamT σ (StateM (Ledger W)) α}
    {f : α → StreamT σ (StateM (Ledger W)) β} (hx : Telling d count (fun _ => 0) x)
    (hf : ∀ a, Telling d count size' (f a)) : Telling d count size' (x >>= f) := by
  intro s l result s' l' hrun
  obtain ⟨e, rfl, hfirst⟩ | ⟨a, s₁, l₁, hfirst, hrest⟩ := acted_bind_cases hrun
  · exact hx hfirst
  · have hall := (hx hfirst).trans (hf a hrest)
    rwa [show moved (Except.map (fun _ => 0) (.ok a)) = 0 from rfl, Nat.zero_add] at hall

/-- What comes back may be put in another form. -/
theorem telling_map {size' : β → Nat} {x : StreamT σ (StateM (Ledger W)) α} {f : α → β}
    (hx : Telling d count size x) (hf : ∀ a, size' (f a) = size a) :
    Telling d count size' (do return f (← x)) := by
  intro s l result s' l' hrun
  obtain ⟨e, rfl, hfirst⟩ | ⟨a, s₁, l₁, hfirst, hrest⟩ := acted_bind_cases hrun
  · exact hx hfirst
  · cases hrest
    change Tells d count (size' (f a)) s l s' l'
    rw [hf]
    exact hx hfirst

theorem telling_onPart {part : σ → τ} {put : σ → τ → σ} {count' : τ → UInt64}
    {x : StreamT τ (StateM (Ledger W)) α} (hx : Telling d count' size x)
    (hpart : ∀ s, count s = count' (part s)) (hput : ∀ s t, count (put s t) = count' t) :
    Telling d count size (Stream.onPart part put x) := by
  intro s l result s' l' hrun
  rw [acted_onPart] at hrun
  rcases hinner : acted x (part s) l with ⟨⟨result', t⟩, l₁⟩
  rw [hinner] at hrun
  cases hrun
  have htells := hx hinner
  exact ⟨by rw [hput, hpart, htells.own], htells.bytes, htells.ops, htells.other, htells.still⟩

section Counter

variable (x : StreamT σ (StateM W) α)

theorem acted_through (note : Except IoError α → Ledger W → Ledger W) (c : Counted (Noted σ))
    (l : Ledger W) :
    ∃ result stream outside, acted (Counted.onInner (Noted.through x note)) c l =
      ((result, { c with inner := stream }), note result { l with outside }) :=
  ⟨_, _, _, rfl⟩

theorem acted_note (n : Nat) (total : Statistics → Statistics) (c : Counted (Noted σ))
    (l : Ledger W) :
    acted (Counted.note n total) c l =
      ((.ok (), { c with count := c.count + UInt64.ofNat n }),
        { l with statistics := if n = 0 then l.statistics else total l.statistics }) := by
  obtain ⟨l', hnote, rfl⟩ := Counted.note_outcome n total c l
  rw [hnote]
  cases n <;> rfl

/-- A read or a write that was noted and told. -/
theorem tells_noted {n : Nat} {c c' : Counted (Noted σ)} {l l' : Ledger W}
    (hcount : c'.count = c.count + UInt64.ofNat n)
    (hstatistics : l'.statistics = if n = 0 then l.statistics else d.tally n l.statistics)
    (hnoted : ∀ d' : Direction, d'.noted l' = d'.noted (d.note n l)) :
    Tells d Counted.count n c l c' l' where
  own := hcount
  bytes := by
    rw [hstatistics]
    cases n with
    | zero => exact (UInt64.add_zero _).symm
    | succ n => exact d.bytes_tally _ _
  ops := by
    refine ⟨[n], (hnoted d).trans (d.noted_note n l), ?_⟩
    rw [hstatistics]
    cases n with
    | zero => exact (UInt64.add_zero _).symm
    | succ n => exact d.ops_tally _ _
  other d' hd := by
    rw [hstatistics]
    refine ⟨?_, ?_, (hnoted d').trans (Direction.noted_note_other hd n l)⟩
    · cases n with
      | zero => rfl
      | succ n => exact Direction.bytes_tally_other hd _ _
    · cases n with
      | zero => rfl
      | succ n => exact Direction.ops_tally_other hd _ _
  still hn := hstatistics.trans (if_pos hn)

/-- The counter tells what the stream behind it moved. -/
theorem telling_move (d : Direction) (size : α → Nat) (x : StreamT σ (StateM W) α) :
    Telling d Counted.count size (do
      let a ← Counted.onInner (Noted.move d size x)
      Counted.note (size a) (d.tally (size a))
      return a) := by
  intro c l result c' l' hrun
  obtain ⟨reply, stream, outside, hx⟩ :=
    acted_through x (fun result => d.note (moved (result.map size))) c l
  change acted (Counted.onInner (Noted.move d size x)) c l = _ at hx
  cases reply with
  | error e =>
    rw [acted_bind, hx] at hrun
    cases hrun
    refine tells_noted (UInt64.add_zero _).symm (d.statistics_note _ _) fun d' => ?_
    cases d <;> cases d' <;> rfl
  | ok a =>
    rw [acted_bind_ok hx, acted_bind_ok (acted_note _ _ _ _)] at hrun
    cases hrun
    refine tells_noted rfl ?_ fun d' => ?_
    · dsimp only
      rw [d.statistics_note]
      rfl
    · cases d <;> cases d' <;> rfl

theorem telling_rest : Telling d Counted.count (fun _ => 0) (Counted.onInner (Noted.rest x)) := by
  intro c l result c' l' hrun
  obtain ⟨reply, stream, outside, hx⟩ := acted_through x (fun _ l => l) c l
  rw [Noted.rest, hx] at hrun
  cases hrun
  rw [show moved (result.map fun _ => 0) = 0 by cases result <;> rfl]
  exact tells_nothing rfl rfl fun d' => by cases d' <;> rfl

end Counter

section Files

variable {ρ ω : Type}

theorem telling_onReader {x : StreamT (Counted (Noted ρ)) (StateM (Ledger W)) α}
    (h : Telling d Counted.count size x) :
    Telling d InputStream.bytesRead size (InputStream.onReader x) :=
  telling_onPart h (fun _ => rfl) fun _ _ => rfl

theorem telling_onWriter {x : StreamT (Counted (Noted ω)) (StateM (Ledger W)) α}
    (h : Telling d Counted.count size x) :
    Telling d OutputStream.bytesWritten size (OutputStream.onWriter x) :=
  telling_onPart h (fun _ => rfl) fun _ _ => rfl

variable [Readable ρ (StateM W)] [Writable ω (StateM W)]

theorem telling_read (n : Nat) :
    Telling (W := W) (σ := InputStream (Noted ρ)) .reading InputStream.bytesRead List.length
      (InputStream.read n) :=
  telling_onReader (telling_move .reading List.length
    (Readable.read n : StreamT ρ (StateM W) (List Byte)))

theorem telling_seek (place : SeekFrom) :
    Telling (W := W) (σ := InputStream (Noted ρ)) .reading InputStream.bytesRead (fun _ => 0)
      (InputStream.seek place) :=
  telling_onReader (telling_rest (Readable.seek place : StreamT ρ (StateM W) UInt64))

theorem telling_position :
    Telling (W := W) (σ := InputStream (Noted ρ)) .reading InputStream.bytesRead (fun _ => 0)
      InputStream.position :=
  telling_onReader (telling_rest (Readable.seek (.current 0) : StreamT ρ (StateM W) UInt64))

theorem telling_readAt (offset : UInt64) (n : Nat) :
    Telling (W := W) (σ := InputStream (Noted ρ)) .reading InputStream.bytesRead List.length
      (InputStream.readAt offset n) :=
  telling_bind (telling_seek (.start offset)) fun _ => telling_read n

theorem telling_write (bytes : List Byte) :
    Telling (W := W) (σ := OutputStream (Noted ω)) .writing OutputStream.bytesWritten id
      (OutputStream.write bytes) :=
  telling_onWriter (telling_move .writing id (Writable.write bytes : StreamT ω (StateM W) Nat))

theorem telling_flush :
    Telling (W := W) (σ := OutputStream (Noted ω)) .writing OutputStream.bytesWritten (fun _ => 0)
      OutputStream.flush :=
  telling_onWriter (telling_rest (Writable.flush : StreamT ω (StateM W) Unit))

theorem telling_close :
    Telling (W := W) (σ := OutputStream (Noted ω)) .writing OutputStream.bytesWritten (fun _ => 0)
      OutputStream.close :=
  telling_onWriter (telling_rest (Writable.shutdown : StreamT ω (StateM W) Unit))

end Files

end Telling

end VolumeFS.Shared
