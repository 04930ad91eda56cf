import VolumeFS.Proofs.Stream.Ledger
import VolumeFS.Stream.Cursor
import VolumeFS.Stream.Sink

/-!
# The statistics are the sum of the streams

Any number of streams are opened, used and dropped in any order, and all of them
count into the same statistics. The statistics of a direction are at any time the
sum of the counts of all streams that were ever opened, and each of these counts
is the number of bytes that the stream moved. Counters are words of 64 bits, so
all of this is up to multiples of their range. Streams of several kinds are
streams of one kind, which is the sum of theirs.
-/

set_option autoImplicit false

namespace VolumeFS.Shared

def total : List UInt64 → UInt64
  | [] => 0
  | n :: ns => n + total ns

theorem total_append (ns ms : List UInt64) : total (ns ++ ms) = total ns + total ms := by
  induction ns with
  | nil => exact (UInt64.zero_add _).symm
  | cons n ns ih => rw [List.cons_append, total, total, ih, UInt64.add_assoc]

theorem total_set {ns : List UInt64} {i : Nat} {n m : UInt64} (h : ns[i]? = some n) :
    total (ns.set i (n + m)) = total ns + m := by
  induction ns generalizing i with
  | nil => simp at h
  | cons k ns ih =>
    cases i with
    | zero =>
      obtain rfl : k = n := Option.some.inj h
      rw [List.set_cons_zero, total, total, UInt64.add_assoc, UInt64.add_comm m,
        ← UInt64.add_assoc]
    | succ i =>
      rw [List.set_cons_succ, total, total, ih h, UInt64.add_assoc]

structure Slot (σ : Type) where
  stream : σ
  isOpen : Bool
  moved : Nat

inductive ReadCall where
  | read (n : Nat)
  | readAt (offset : UInt64) (n : Nat)
  | seekTo (offset : UInt64)
  | position

inductive WriteCall where
  | write (bytes : List Byte)
  | flush
  | close
  deriving DecidableEq

section Calls

variable {m : Type → Type} [Monad m] [MonadStateOf Statistics m] {ρ ω : Type} [Readable ρ m]
  [Writable ω m]

def ReadCall.act : ReadCall → StreamT (InputStream ρ) m Nat
  | .read n => return (← InputStream.read n).length
  | .readAt offset n => return (← InputStream.readAt offset n).length
  | .seekTo offset => do
    let _ ← InputStream.seekTo offset
    return 0
  | .position => do
    let _ ← InputStream.position
    return 0

def WriteCall.act : WriteCall → StreamT (OutputStream ω) m Nat
  | .write bytes => OutputStream.write bytes
  | .flush => do
    OutputStream.flush
    return 0
  | .close => do
    OutputStream.close
    return 0

end Calls

variable {σ ρ ω W : Type}

def call (x : StreamT σ (StateM (Ledger W)) Nat) (stays : Bool) (i : Nat) (slots : List (Slot σ))
    (l : Ledger W) : Except IoError Nat × List (Slot σ) × Ledger W :=
  match slots[i]? with
  | some ⟨stream, true, before⟩ =>
    let ((result, stream), l) := Stream.act x stream l
    (result, slots.set i ⟨stream, stays, before + moved result⟩, l)
  | _ => (.ok 0, slots, l)

structure Desk (ρ ω W : Type) where
  readers : List (Slot (InputStream (Noted ρ)))
  writers : List (Slot (OutputStream (Noted ω)))
  ledger : Ledger W

def Desk.start (outside : W) : Desk ρ ω W := ⟨[], [], ⟨.zero, outside, [], []⟩⟩

inductive Step (ρ ω W : Type) where
  | openReader (inner : ρ) (source : StreamSource) (path : Path)
  | openWriter (inner : ω) (path : Path)
  | dropReader (i : Nat)
  | dropWriter (i : Nat)
  | callReader (i : Nat) (c : ReadCall)
  | callWriter (i : Nat) (c : WriteCall)
  /-- Something else happens to what the streams act on. -/
  | happen (change : W → W)

def drop (i : Nat) (slots : List (Slot σ)) : List (Slot σ) :=
  slots.modify i fun slot => { slot with isOpen := false }

variable [Readable ρ (StateM W)] [Writable ω (StateM W)]

/-- One step: how it ends, with the number of bytes it moved, and the desk after it. -/
def next (d : Desk ρ ω W) : Step ρ ω W → Except IoError Nat × Desk ρ ω W
  | .openReader inner source path =>
    (.ok 0, { d with readers := d.readers ++ [⟨.start ⟨inner⟩ source path, true, 0⟩] })
  | .openWriter inner path =>
    (.ok 0, { d with writers := d.writers ++ [⟨.start ⟨inner⟩ path, true, 0⟩] })
  | .dropReader i => (.ok 0, { d with readers := drop i d.readers })
  | .dropWriter i => (.ok 0, { d with writers := drop i d.writers })
  | .callReader i c =>
    let (result, readers, ledger) := call c.act true i d.readers d.ledger
    (result, { d with readers, ledger })
  | .callWriter i c =>
    let (result, writers, ledger) := call c.act (c ≠ .close) i d.writers d.ledger
    (result, { d with writers, ledger })
  | .happen change =>
    (.ok 0, { d with ledger := { d.ledger with outside := change d.ledger.outside } })

def after (d : Desk ρ ω W) : List (Step ρ ω W) → Desk ρ ω W
  | [] => d
  | step :: steps => after (next d step).2 steps

omit [Writable ω (StateM W)] in
theorem telling_readCall (c : ReadCall) :
    Telling (W := W) (σ := InputStream (Noted ρ)) .reading InputStream.bytesRead id c.act := by
  cases c with
  | read n => exact telling_map (telling_read n) fun _ => rfl
  | readAt offset n => exact telling_map (telling_readAt offset n) fun _ => rfl
  | seekTo offset => exact telling_bind (telling_seek _) fun _ => telling_pure rfl
  | position => exact telling_bind telling_position fun _ => telling_pure rfl

omit [Readable ρ (StateM W)] in
theorem telling_writeCall (c : WriteCall) :
    Telling (W := W) (σ := OutputStream (Noted ω)) .writing OutputStream.bytesWritten id c.act := by
  cases c with
  | write bytes => exact telling_write bytes
  | flush => exact telling_bind telling_flush fun _ => telling_pure rfl
  | close => exact telling_bind telling_close fun _ => telling_pure rfl

section Balance

/-- The statistics of a direction are those of its streams, and each of these counts what it
moved. -/
structure Balances (d : Direction) (count : σ → UInt64) (slots : List (Slot σ)) (l : Ledger W) :
    Prop where
  bytes : d.bytes l.statistics = total (slots.map fun slot => count slot.stream)
  ops : d.ops l.statistics = UInt64.ofNat ((d.noted l).countP (0 < ·))
  own : ∀ slot ∈ slots, count slot.stream = UInt64.ofNat slot.moved

def SameCounts (count : σ → UInt64) (slots slots' : List (Slot σ)) : Prop :=
  ∀ (i : Nat) (slot : Slot σ), slots[i]? = some slot →
    ∃ slot' : Slot σ, slots'[i]? = some slot' ∧ count slot'.stream = count slot.stream

variable {d d' : Direction} {count : σ → UInt64} {slots slots' : List (Slot σ)} {l l' : Ledger W}

theorem SameCounts.refl (slots : List (Slot σ)) : SameCounts count slots slots :=
  fun _ slot h => ⟨slot, h, rfl⟩

theorem Balances.of_eq (h : Balances d count slots l)
    (hbytes : d.bytes l'.statistics = d.bytes l.statistics)
    (hops : d.ops l'.statistics = d.ops l.statistics) (hnoted : d.noted l' = d.noted l) :
    Balances d count slots l' :=
  ⟨hbytes.trans h.bytes, by rw [hops, hnoted, h.ops], h.own⟩

theorem Balances.opened (h : Balances d count slots l) {stream : σ} (hcount : count stream = 0) :
    Balances d count (slots ++ [⟨stream, true, 0⟩]) l where
  bytes := by
    rw [h.bytes, List.map_append, total_append]
    simp [total, hcount]
  ops := h.ops
  own slot hslot := by
    rw [List.mem_append, List.mem_singleton] at hslot
    obtain hslot | rfl := hslot
    · exact h.own slot hslot
    · exact hcount

theorem same_opened (slots : List (Slot σ)) (slot : Slot σ) :
    SameCounts count slots (slots ++ [slot]) := by
  intro i slot' h
  obtain ⟨hi, -⟩ := List.getElem?_eq_some_iff.1 h
  exact ⟨slot', by rwa [List.getElem?_append_left hi], rfl⟩

theorem map_drop {β : Type} (f : Slot σ → β)
    (hf : ∀ slot, f { slot with isOpen := false } = f slot) (i : Nat) (slots : List (Slot σ)) :
    (drop i slots).map f = slots.map f := by
  refine List.ext_getElem? fun j => ?_
  rw [drop, List.getElem?_map, List.getElem?_map, List.getElem?_modify]
  cases slots[j]? with
  | none => rfl
  | some slot =>
    by_cases hi : i = j
    · simp [hi, hf]
    · simp [hi]

theorem Balances.dropped (h : Balances d count slots l) (i : Nat) :
    Balances d count (drop i slots) l where
  bytes := by
    rw [h.bytes, map_drop (fun slot => count slot.stream) (fun _ => rfl)]
  ops := h.ops
  own slot hslot := by
    have hkept := map_drop (fun slot => (count slot.stream, slot.moved)) (fun _ => rfl) i slots
    have hmem := List.mem_map_of_mem (f := fun slot => (count slot.stream, slot.moved)) hslot
    rw [hkept, List.mem_map] at hmem
    obtain ⟨slot', hslot', heq⟩ := hmem
    obtain ⟨hcount, hmoved⟩ := Prod.mk.inj heq
    rw [← hcount, ← hmoved]
    exact h.own slot' hslot'

theorem same_dropped (i : Nat) (slots : List (Slot σ)) :
    SameCounts count slots (drop i slots) := by
  intro j slot h
  have hkept := congrArg (·[j]?) (map_drop (fun slot => count slot.stream) (fun _ => rfl) i slots)
  simp only [List.getElem?_map, h, Option.map_some, Option.map_eq_some_iff] at hkept
  exact hkept

/-- A call of an open stream, or nothing at all. -/
theorem call_cases (x : StreamT σ (StateM (Ledger W)) Nat) (stays : Bool) (i : Nat)
    (slots : List (Slot σ)) (l : Ledger W) :
    (∃ stream before result stream' l', slots[i]? = some ⟨stream, true, before⟩ ∧
      acted x stream l = ((result, stream'), l') ∧
      call x stays i slots l =
        (result, slots.set i ⟨stream', stays, before + moved result⟩, l')) ∨
    call x stays i slots l = (.ok 0, slots, l) := by
  unfold call
  split
  · exact .inl ⟨_, _, _, _, _, ‹_›, rfl, rfl⟩
  · exact .inr rfl

theorem moved_map_id (result : Except IoError Nat) : moved (result.map id) = moved result := by
  cases result <;> rfl

variable {x : StreamT σ (StateM (Ledger W)) Nat} (hx : Telling d count id x)

include hx

/-- What a call moves is told. -/
theorem Balances.called (h : Balances d count slots l) (stays : Bool) (i : Nat) :
    Balances d count (call x stays i slots l).2.1 (call x stays i slots l).2.2 := by
  obtain ⟨stream, before, result, stream', l', hslot, hrun, hcall⟩ | hcall :=
    call_cases x stays i slots l
  · rw [hcall]
    have htells := hx hrun
    rw [moved_map_id] at htells
    obtain ⟨new, hnoted, hops⟩ := htells.ops
    refine ⟨?_, ?_, ?_⟩
    · have hcount : (slots.map fun slot => count slot.stream)[i]? = some (count stream) := by
        rw [List.getElem?_map, hslot]
        rfl
      dsimp only
      rw [htells.bytes, h.bytes, List.map_set, htells.own, total_set hcount]
    · dsimp only
      rw [hops, h.ops, hnoted, List.countP_append, Nat.add_comm, UInt64.ofNat_add]
    · intro slot hmem
      obtain hmem | rfl := List.mem_or_eq_of_mem_set hmem
      · exact h.own slot hmem
      · have hown := h.own _ (List.mem_of_getElem? hslot)
        dsimp only at hown ⊢
        rw [htells.own, hown, UInt64.ofNat_add]
  · rw [hcall]
    exact h

/-- A call in one direction leaves the other as it is. -/
theorem Balances.beside {τ : Type} {count' : τ → UInt64} {others : List (Slot τ)} (hd : d' ≠ d)
    (h : Balances d' count' others l) (stays : Bool) (i : Nat) :
    Balances d' count' others (call x stays i slots l).2.2 := by
  obtain ⟨stream, before, result, stream', l', hslot, hrun, hcall⟩ | hcall :=
    call_cases x stays i slots l
  · rw [hcall]
    obtain ⟨hbytes, hops, hnoted⟩ := (hx hrun).other d' hd
    exact h.of_eq hbytes hops hnoted
  · rw [hcall]
    exact h

theorem called_still (stays : Bool) (i : Nat) (h : moved (call x stays i slots l).1 = 0) :
    (call x stays i slots l).2.2.statistics = l.statistics ∧
      SameCounts count slots (call x stays i slots l).2.1 := by
  obtain ⟨stream, before, result, stream', l', hslot, hrun, hcall⟩ | hcall :=
    call_cases x stays i slots l
  · rw [hcall] at h ⊢
    have htells := hx hrun
    rw [moved_map_id, show moved result = 0 from h] at htells
    refine ⟨htells.still rfl, fun j slot hj => ?_⟩
    by_cases hij : i = j
    · subst hij
      obtain rfl : ⟨stream, true, before⟩ = slot := Option.some.inj (hslot.symm.trans hj)
      obtain ⟨hi, -⟩ := List.getElem?_eq_some_iff.1 hj
      refine ⟨⟨stream', stays, before + moved result⟩, List.getElem?_set_self hi, ?_⟩
      exact htells.own.trans (UInt64.add_zero _)
    · exact ⟨slot, by rw [List.getElem?_set_ne hij, hj], rfl⟩
  · rw [hcall]
    exact ⟨rfl, .refl slots⟩

end Balance

structure Balanced (d : Desk ρ ω W) : Prop where
  reading : Balances .reading InputStream.bytesRead d.readers d.ledger
  writing : Balances .writing OutputStream.bytesWritten d.writers d.ledger

structure Unmoved (d d' : Desk ρ ω W) : Prop where
  statistics : d'.ledger.statistics = d.ledger.statistics
  readers : SameCounts InputStream.bytesRead d.readers d'.readers
  writers : SameCounts OutputStream.bytesWritten d.writers d'.writers

omit [Readable ρ (StateM W)] [Writable ω (StateM W)] in
theorem start_balanced (outside : W) : Balanced (.start outside : Desk ρ ω W) :=
  ⟨⟨rfl, rfl, nofun⟩, ⟨rfl, rfl, nofun⟩⟩

theorem next_balanced {d : Desk ρ ω W} (h : Balanced d) (step : Step ρ ω W) :
    Balanced (next d step).2 := by
  cases step with
  | openReader inner source path => exact ⟨h.reading.opened rfl, h.writing⟩
  | openWriter inner path => exact ⟨h.reading, h.writing.opened rfl⟩
  | dropReader i => exact ⟨h.reading.dropped i, h.writing⟩
  | dropWriter i => exact ⟨h.reading, h.writing.dropped i⟩
  -- A call is told in its own direction, and the other one does not notice it.
  | callReader i c =>
    exact ⟨h.reading.called (telling_readCall c) _ i,
      h.writing.beside (telling_readCall c) (by decide) _ i⟩
  | callWriter i c =>
    exact ⟨h.reading.beside (telling_writeCall c) (by decide) _ i,
      h.writing.called (telling_writeCall c) _ i⟩
  | happen change => exact ⟨h.reading.of_eq rfl rfl rfl, h.writing.of_eq rfl rfl rfl⟩

theorem next_unmoved (d : Desk ρ ω W) (step : Step ρ ω W) (h : moved (next d step).1 = 0) :
    Unmoved d (next d step).2 := by
  cases step with
  | openReader inner source path => exact ⟨rfl, same_opened _ _, .refl _⟩
  | openWriter inner path => exact ⟨rfl, .refl _, same_opened _ _⟩
  | dropReader i => exact ⟨rfl, same_dropped i _, .refl _⟩
  | dropWriter i => exact ⟨rfl, .refl _, same_dropped i _⟩
  | callReader i c =>
    obtain ⟨hstatistics, hsame⟩ := called_still (telling_readCall c) _ i h
    exact ⟨hstatistics, hsame, .refl _⟩
  | callWriter i c =>
    obtain ⟨hstatistics, hsame⟩ := called_still (telling_writeCall c) _ i h
    exact ⟨hstatistics, .refl _, hsame⟩
  | happen change => exact ⟨rfl, .refl _, .refl _⟩

theorem after_balanced {d : Desk ρ ω W} (h : Balanced d) (steps : List (Step ρ ω W)) :
    Balanced (after d steps) := by
  induction steps generalizing d with
  | nil => exact h
  | cons step steps ih => exact ih (next_balanced h step)

/-- After any steps the statistics are the sums over all streams that were ever opened, and they
tell how many reads and writes moved bytes. A step that fails or moves nothing changes no
counter. -/
theorem statistics_exact (outside : W) (steps : List (Step ρ ω W)) :
    Balanced (after (.start outside) steps) ∧
    ∀ step, moved (next (after (.start outside) steps) step).1 = 0 →
      Unmoved (after (.start outside) steps) (next (after (.start outside) steps) step).2 :=
  ⟨after_balanced (start_balanced outside) steps, fun step => next_unmoved _ step⟩

/-- A dropped stream is not read again, and its bytes stay in the sum. -/
example : (after (.start ()) [.openReader (.ofBytes [1, 2, 3]) .native .root,
      .openWriter (.empty (some 2) none) .root, .callReader 0 (.read 2),
      .callWriter 0 (.write [7, 8, 9]), .callReader 0 (.readAt 0 5), .dropReader 0,
      .callReader 0 (.read 1)] : Desk Cursor Sink Unit).ledger.statistics = ⟨5, 2, 2, 1⟩ :=
  rfl

end VolumeFS.Shared
