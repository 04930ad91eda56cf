import VolumeFS.Proofs.Stream.Accepts
import VolumeFS.Stream.Cursor

/-!
# Moving in an open file

An open file can be read piece by piece, moved in, and asked for its place. It
does this as a cursor does that goes over the bytes, with a buffer or without
one. A buffer has fetched more than was read, so the stream behind it is ahead,
and any move empties the buffer. What is left in a buffer can make a read short.
Asking for the place is a move too, and after it the next read is not short.
-/

set_option autoImplicit false

namespace VolumeFS

namespace Seeking

def opened (data : List Byte) : Option Nat → Cursor ⊕ ReadBuffer Cursor
  | none => .inl (.ofBytes data)
  | some capacity => .inr (.ofCapacity capacity (.ofBytes data))

inductive Request where
  | read (n : Nat)
  | seekTo (offset : UInt64)
  | position
  | readAt (offset : UInt64) (n : Nat)
  deriving DecidableEq, Repr

inductive Reply where
  | bytes (piece : List Byte)
  | place (offset : UInt64)
  deriving DecidableEq, Repr

section Serving

variable {m : Type → Type} [Monad m] [MonadStateOf Statistics m] {ρ : Type} [Readable ρ m]

def serve : Request → StreamT (InputStream ρ) m Reply
  | .read n => return .bytes (← InputStream.read n)
  | .seekTo offset => return .place (← InputStream.seekTo offset)
  | .position => return .place (← InputStream.position)
  | .readAt offset n => return .bytes (← InputStream.readAt offset n)

def serveAll : List Request → StreamT (InputStream ρ) m (List Reply)
  | [] => return []
  | request :: requests => return (← serve request) :: (← serveAll requests)

end Serving

section Walking

variable (data : List Byte) (buffered : Bool)

/-- A piece of at most `n` bytes that is read at `q`. It is as long as it can be, unless there is a
buffer that is not `fresh`. -/
structure Piece (q : Nat) (fresh : Bool) (n : Nat) (piece : List Byte) : Prop where
  there : piece <+: data.drop q
  short : piece.length ≤ n
  none : piece = [] ↔ n = 0 ∨ data.length ≤ q
  whole : fresh = true ∨ buffered = false → piece = (data.drop q).take n

/-- What a cursor at `q` may reply, and where it is then. -/
inductive Follows : Nat → Bool → Request → Reply → Nat → Bool → Prop
  | read {q n : Nat} {fresh : Bool} {piece : List Byte} (h : Piece data buffered q fresh n piece) :
      Follows q fresh (.read n) (.bytes piece) (q + piece.length) false
  | seekTo {q : Nat} {fresh : Bool} (offset : UInt64) :
      Follows q fresh (.seekTo offset) (.place offset) offset.toNat true
  | position {q : Nat} {fresh : Bool} {offset : UInt64} (h : offset.toNat = q) :
      Follows q fresh .position (.place offset) q true
  | readAt {q n : Nat} {fresh : Bool} {offset : UInt64} {piece : List Byte}
      (h : piece = (data.drop offset.toNat).take n) :
      Follows q fresh (.readAt offset n) (.bytes piece) (offset.toNat + piece.length) false

inductive Conforms : Nat → Bool → List Request → List Reply → Prop
  | nil {q : Nat} {fresh : Bool} : Conforms q fresh [] []
  | cons {q q' : Nat} {fresh fresh' : Bool} {request : Request} {reply : Reply}
      {requests : List Request} {replies : List Reply}
      (first : Follows data buffered q fresh request reply q' fresh')
      (rest : Conforms q' fresh' requests replies) :
      Conforms q fresh (request :: requests) (reply :: replies)

/-- `At` tells where in the bytes a stream is, and if nothing is left in its buffer. -/
structure Walks {W ρ : Type} [Readable ρ (StateM W)] (At : ρ → Nat → Bool → Prop) : Prop where
  read : ∀ {r q fresh} n (w : W), At r q fresh →
    ∃ piece r' w', acted (Readable.read n) r w = ((.ok piece, r'), w') ∧
      Piece data buffered q fresh n piece ∧ At r' (q + piece.length) false
  seekTo : ∀ {r q fresh} offset (w : W), At r q fresh →
    ∃ r' w', acted (Readable.seek (.start offset)) r w = ((.ok offset, r'), w') ∧
      At r' offset.toNat true
  position : ∀ {r q fresh} (w : W), At r q fresh →
    ∃ offset r' w', acted Stream.position r w = ((.ok offset, r'), w') ∧ offset.toNat = q ∧
      At r' q true ∧ (buffered = false → r' = r ∧ w' = w)

end Walking

variable {W : Type} {data : List Byte} {buffered : Bool}

theorem piece_whole (buffered : Bool) (q : Nat) (fresh : Bool) (n : Nat) :
    Piece data buffered q fresh n ((data.drop q).take n) where
  there := List.take_prefix _ _
  short := List.length_take_le _ _
  none := by rw [List.take_eq_nil_iff, List.drop_eq_nil_iff]
  whole _ := rfl

theorem drop_prefix {piece rest bytes : List Byte} {q : Nat}
    (h : piece ++ rest <+: bytes.drop q) : rest <+: bytes.drop (q + piece.length) := by
  obtain ⟨behind, hbehind⟩ := h
  refine ⟨behind, ?_⟩
  rw [← List.drop_drop, ← hbehind, List.append_assoc, List.drop_left]

section Cursor

structure Stands (data : List Byte) (c : Cursor) (q : Nat) : Prop where
  data_eq : c.data = data
  place : c.position.toNat = q

theorem stands_position {c : Cursor} {q : Nat} (h : Stands data c q) : q ≤ Offset.largest := by
  rw [← h.place]
  exact Offset.toNat_le_largest _

theorem cursor_read (hfits : data.length ≤ Offset.largest) {c : Cursor} {q : Nat}
    (h : Stands data c q) (n : Nat) (w : W) :
    ∃ c', acted (Readable.read n) c w = ((.ok ((data.drop q).take n), c'), w) ∧
      Stands data c' (q + ((data.drop q).take n).length) := by
  have hq := stands_position h
  obtain ⟨data, position⟩ := c
  obtain ⟨rfl, rfl⟩ := h
  refine ⟨_, rfl, rfl, ?_⟩
  change (UInt64.ofNat (position.toNat + ((data.drop position.toNat).take n).length)).toNat = _
  rw [UInt64.toNat_ofNat']
  refine Nat.mod_eq_of_lt ?_
  simp only [List.length_take, List.length_drop, Offset.largest] at hq hfits ⊢
  omega

theorem cursor_seek (c : Cursor) (offset : UInt64) (w : W) :
    acted (Readable.seek (.start offset)) c w =
      ((.ok offset, { c with position := offset }), w) := rfl

theorem cursor_move {c : Cursor} {q : Nat} {distance : Int}
    (h : (c.position.toNat : Int) + distance = q) (hq : q ≤ Offset.largest) (w : W) :
    acted (Readable.seek (.current distance)) c w =
      ((.ok (UInt64.ofNat q), { c with position := UInt64.ofNat q }), w) := by
  have htarget : c.target? (.current distance) = some (UInt64.ofNat q) := by
    rw [Cursor.target?, Offset.moved?, h]
    exact if_pos ⟨Int.natCast_nonneg q, Int.ofNat_le.2 hq⟩
  dsimp only [Readable.seek]
  rw [acted_get_bind, htarget]
  rfl

theorem toNat_place {q : Nat} (hq : q ≤ Offset.largest) : (UInt64.ofNat q).toNat = q := by
  rw [UInt64.toNat_ofNat']
  refine Nat.mod_eq_of_lt ?_
  rw [Offset.largest] at hq
  omega

theorem cursor_walks (hfits : data.length ≤ Offset.largest) :
    Walks (W := W) data false fun c q _ => Stands data c q where
  read {c q fresh} n w h := by
    obtain ⟨c', hread, hc'⟩ := cursor_read hfits h n w
    exact ⟨_, c', w, hread, piece_whole _ _ _ _, hc'⟩
  seekTo {c _ _} offset w h := ⟨_, w, cursor_seek c offset w, h.data_eq, rfl⟩
  position {c q _} w h := by
    have hq := stands_position h
    have hsame : UInt64.ofNat q = c.position := by rw [← h.place, UInt64.ofNat_toNat]
    refine ⟨_, _, w, cursor_move (q := q) (by rw [h.place]; omega) hq w, toNat_place hq, ?_⟩
    rw [hsame]
    exact ⟨h, fun _ => ⟨rfl, rfl⟩⟩

end Cursor

section Buffer

structure Ahead (data : List Byte) (b : ReadBuffer Cursor) (q : Nat) (fresh : Bool) : Prop where
  cursor : Stands data b.inner (q + b.rest.length)
  fetched : b.rest <+: data.drop q
  empty : fresh = true → b.rest = []

theorem ahead_empty {b : ReadBuffer Cursor} {q : Nat} {fresh : Bool} (h : Stands data b.inner q)
    (hrest : b.rest = []) : Ahead data b q fresh where
  cursor := by rwa [hrest]
  fetched := by rw [hrest]; exact List.nil_prefix
  empty _ := hrest

/-- An empty buffer is passed by, or filled and then read. -/
theorem buffer_read_fresh (hfits : data.length ≤ Offset.largest) {b : ReadBuffer Cursor} {q : Nat}
    {fresh : Bool} (h : Ahead data b q fresh) (hrest : b.rest = []) (n : Nat) (w : W) :
    ∃ b', acted (Readable.read n) b w = ((.ok ((data.drop q).take n), b'), w) ∧
      Ahead data b' (q + ((data.drop q).take n).length) false := by
  obtain ⟨inner, capacity, rest⟩ := b
  obtain rfl : rest = [] := hrest
  have hinner : Stands data inner q := h.cursor
  change ∃ b', acted (ReadBuffer.read n) _ w = _ ∧ _
  unfold ReadBuffer.read
  simp only [acted_get_bind, List.isEmpty_nil, Bool.true_and, decide_eq_true_eq, if_true]
  by_cases hpast : capacity ≤ n
  · obtain ⟨inner', hread, hinner'⟩ := cursor_read hfits hinner n w
    refine ⟨⟨inner', capacity, []⟩, ?_, ahead_empty hinner' rfl⟩
    rw [if_pos hpast, ReadBuffer.onInner, acted_onPart, hread]
  · obtain ⟨inner', hread, hinner'⟩ := cursor_read hfits hinner capacity w
    have hpiece : ((data.drop q).take capacity).take n = (data.drop q).take n := by
      rw [List.take_take, Nat.min_eq_left (by omega)]
    have hsplit : (data.drop q).take n ++ ((data.drop q).take capacity).drop n =
        (data.drop q).take capacity := by
      rw [← hpiece, List.take_append_drop]
    have hfetch : acted (ReadBuffer.onInner (Readable.read capacity))
        (⟨inner, capacity, []⟩ : ReadBuffer Cursor) w =
        ((.ok ((data.drop q).take capacity), ⟨inner', capacity, []⟩), w) := by
      rw [ReadBuffer.onInner, acted_onPart, hread]
    refine ⟨⟨inner', capacity, ((data.drop q).take capacity).drop n⟩, ?_, ?_, ?_,
      fun h => absurd h Bool.false_ne_true⟩
    · rw [if_neg hpast, acted_bind_ok hfetch, ← hpiece]
      rfl
    · rwa [Nat.add_assoc, ← List.length_append, hsplit]
    · refine drop_prefix ?_
      rw [hsplit]
      exact List.take_prefix _ _

/-- A read of a buffer takes what is left there, and no more. -/
theorem buffer_read_rest {b : ReadBuffer Cursor} {q : Nat} {fresh : Bool}
    (h : Ahead data b q fresh) (hrest : b.rest ≠ []) (n : Nat) (w : W) :
    ∃ b', acted (Readable.read n) b w = ((.ok (b.rest.take n), b'), w) ∧
      Ahead data b' (q + (b.rest.take n).length) false := by
  obtain ⟨inner, capacity, rest⟩ := b
  have hnot : rest.isEmpty = false := List.isEmpty_eq_false_iff.2 hrest
  refine ⟨⟨inner, capacity, rest.drop n⟩, ?_, ?_, ?_, fun h => absurd h Bool.false_ne_true⟩
  · change acted (ReadBuffer.read n) _ w = _
    unfold ReadBuffer.read
    simp only [acted_get_bind, hnot, Bool.false_and, Bool.false_eq_true, if_false]
    rfl
  · rw [Nat.add_assoc, ← List.length_append, List.take_append_drop]
    exact h.cursor
  · refine drop_prefix ?_
    rw [List.take_append_drop]
    exact h.fetched

theorem piece_rest {b : ReadBuffer Cursor} {q : Nat} {fresh : Bool} (h : Ahead data b q fresh)
    (hrest : b.rest ≠ []) (n : Nat) : Piece data true q fresh n (b.rest.take n) where
  there := (List.take_prefix _ _).trans h.fetched
  short := List.length_take_le _ _
  none := by
    have hin : ¬ data.length ≤ q := fun hout =>
      hrest (List.prefix_nil.1 (List.drop_eq_nil_iff.2 hout ▸ h.fetched))
    rw [List.take_eq_nil_iff, or_iff_left hrest, or_iff_left hin]
  whole hwhole := by
    obtain hfresh | hnone := hwhole
    · exact absurd (h.empty hfresh) hrest
    · cases hnone

theorem buffer_seek (b : ReadBuffer Cursor) (offset : UInt64) (w : W) :
    acted (Readable.seek (.start offset)) b w =
      ((.ok offset, ⟨{ b.inner with position := offset }, b.capacity, []⟩), w) := rfl

/-- To ask for the place moves the cursor back by what was fetched and not read. -/
theorem buffer_position {b : ReadBuffer Cursor} {q : Nat} {fresh : Bool}
    (h : Ahead data b q fresh) (w : W) :
    acted Stream.position b w = ((.ok (UInt64.ofNat q),
      ⟨{ b.inner with position := UInt64.ofNat q }, b.capacity, []⟩), w) := by
  have hq : q ≤ Offset.largest := Nat.le_trans (Nat.le_add_right _ _) (stands_position h.cursor)
  have hplace := h.cursor.place
  have hback : acted (Readable.seek (.current (-(b.rest.length : Int)))) b.inner w =
      ((.ok (UInt64.ofNat q), { b.inner with position := UInt64.ofNat q }), w) :=
    cursor_move (by rw [hplace]; omega) hq w
  have hinner : ∃ rest, acted (ReadBuffer.seekInner (.current 0)) b w =
      ((.ok (UInt64.ofNat q),
        ⟨{ b.inner with position := UInt64.ofNat q }, b.capacity, rest⟩), w) := by
    unfold ReadBuffer.seekInner
    dsimp only
    rw [acted_get_bind, Int.zero_sub]
    by_cases hnear : ReadBuffer.leastDistance ≤ -(b.rest.length : Int)
    · refine ⟨b.rest, ?_⟩
      rw [if_pos hnear, ReadBuffer.onInner, acted_onPart, hback]
    · -- So much is left that the buffer goes back first and then stays, in two seeks.
      have hmoved : acted (ReadBuffer.onInner (Readable.seek
          (.current (-(b.rest.length : Int))))) b w = ((.ok (UInt64.ofNat q),
            { b with inner := { b.inner with position := UInt64.ofNat q } }), w) := by
        rw [ReadBuffer.onInner, acted_onPart, hback]
      have hstay : acted (Readable.seek (.current 0))
          { b.inner with position := UInt64.ofNat q } w =
          ((.ok (UInt64.ofNat q), { b.inner with position := UInt64.ofNat q }), w) :=
        cursor_move (by rw [toNat_place hq]; omega) hq w
      refine ⟨[], ?_⟩
      rw [if_neg hnear, acted_bind_ok hmoved]
      change acted (ReadBuffer.onInner (Readable.seek (.current 0)))
        ⟨{ b.inner with position := UInt64.ofNat q }, b.capacity, []⟩ w = _
      rw [ReadBuffer.onInner, acted_onPart, hstay]
  obtain ⟨rest, hinner⟩ := hinner
  change acted (ReadBuffer.seek (.current 0)) b w = _
  unfold ReadBuffer.seek
  rw [acted_bind_ok hinner]
  rfl

theorem buffer_walks (hfits : data.length ≤ Offset.largest) :
    Walks (W := W) data true (Ahead data) where
  read {b q fresh} n w h := by
    by_cases hrest : b.rest = []
    · obtain ⟨b', hread, hb'⟩ := buffer_read_fresh hfits h hrest n w
      exact ⟨_, b', w, hread, piece_whole _ _ _ _, hb'⟩
    · obtain ⟨b', hread, hb'⟩ := buffer_read_rest h hrest n w
      exact ⟨_, b', w, hread, piece_rest h hrest n, hb'⟩
  seekTo {b _ _} offset w h :=
    ⟨_, w, buffer_seek b offset w, ahead_empty ⟨h.cursor.data_eq, rfl⟩ rfl⟩
  position {b q _} w h := by
    have hq : q ≤ Offset.largest := Nat.le_trans (Nat.le_add_right _ _) (stands_position h.cursor)
    exact ⟨_, _, w, buffer_position h w, toNat_place hq,
      ahead_empty ⟨h.cursor.data_eq, toNat_place hq⟩ rfl, nofun⟩

end Buffer

section Layers

variable {ρ τ : Type} [Readable ρ (StateM W)] {At : ρ → Nat → Bool → Prop}
  (h : Walks (W := W) data buffered At)

include h

/-- Streams of one kind that are taken for streams of another. -/
theorem walks_among [Readable τ (StateM W)] (into : ρ → τ)
    (hread : ∀ n r (w : W), acted (Readable.read n) (into r) w =
      (((acted (Readable.read n) r w).1.1, into (acted (Readable.read n) r w).1.2),
        (acted (Readable.read n) r w).2))
    (hseek : ∀ place r (w : W), acted (Readable.seek place) (into r) w =
      (((acted (Readable.seek place) r w).1.1, into (acted (Readable.seek place) r w).1.2),
        (acted (Readable.seek place) r w).2)) :
    Walks (W := W) data buffered fun t q fresh => ∃ r, t = into r ∧ At r q fresh where
  read := by
    rintro _ q fresh n w ⟨r, rfl, hr⟩
    obtain ⟨piece, r', w', hpiece, hq, hr'⟩ := h.read n w hr
    refine ⟨piece, into r', w', ?_, hq, r', rfl, hr'⟩
    rw [hread, hpiece]
  seekTo := by
    rintro _ q fresh offset w ⟨r, rfl, hr⟩
    obtain ⟨r', w', hmove, hr'⟩ := h.seekTo offset w hr
    refine ⟨into r', w', ?_, r', rfl, hr'⟩
    rw [hseek, hmove]
  position := by
    rintro _ q fresh w ⟨r, rfl, hr⟩
    obtain ⟨offset, r', w', hmove, hoffset, hr', hsame⟩ := h.position w hr
    refine ⟨offset, into r', w', ?_, hoffset, ⟨r', rfl, hr'⟩, fun hb => ?_⟩
    · rw [Stream.position] at hmove ⊢
      rw [hseek, hmove]
    · obtain ⟨rfl, rfl⟩ := hsame hb
      exact ⟨rfl, rfl⟩

variable [MonadStateOf Statistics (StateM W)]

theorem counted_walks :
    Walks (W := W) data buffered fun (c : Counted ρ) q fresh => At c.inner q fresh where
  read {c q fresh} n w hc := by
    obtain ⟨piece, r', w', hread, hpiece, hr'⟩ := h.read n w hc
    have hinner : acted (Counted.onInner (Readable.read n)) c w =
        ((.ok piece, { c with inner := r' }), w') := by
      rw [Counted.onInner, acted_onPart, hread]
    obtain ⟨w₂, hnote, -⟩ := Counted.note_outcome piece.length
      (fun s => (s.addBytesRead (UInt64.ofNat piece.length)).addReadOp) { c with inner := r' } w'
    refine ⟨piece, ⟨r', c.count + UInt64.ofNat piece.length⟩, w₂, ?_, hpiece, hr'⟩
    change acted (Counted.read n) c w = _
    unfold Counted.read
    rw [acted_bind_ok hinner, acted_bind_ok hnote]
    rfl
  seekTo {c q fresh} offset w hc := by
    obtain ⟨r', w', hmove, hr'⟩ := h.seekTo offset w hc
    refine ⟨{ c with inner := r' }, w', ?_, hr'⟩
    change acted (Counted.onInner (Readable.seek (.start offset))) c w = _
    rw [Counted.onInner, acted_onPart, hmove]
  position {c q fresh} w hc := by
    obtain ⟨offset, r', w', hmove, hoffset, hr', hsame⟩ := h.position w hc
    refine ⟨offset, { c with inner := r' }, w', ?_, hoffset, hr', fun hb => ?_⟩
    · rw [Stream.position] at hmove ⊢
      change acted (Counted.onInner (Readable.seek (.current 0))) c w = _
      rw [Counted.onInner, acted_onPart, hmove]
    · obtain ⟨rfl, rfl⟩ := hsame hb
      exact ⟨rfl, rfl⟩

end Layers

section Files

variable {ρ : Type} [Readable ρ (StateM W)] [MonadStateOf Statistics (StateM W)]
  {At : Counted ρ → Nat → Bool → Prop} (h : Walks (W := W) data buffered At)

include h

theorem file_read {s : InputStream ρ} {q : Nat} {fresh : Bool} (n : Nat) (w : W)
    (hs : At s.reader q fresh) :
    ∃ piece s' w', acted (InputStream.read n) s w = ((.ok piece, s'), w') ∧
      Piece data buffered q fresh n piece ∧ At s'.reader (q + piece.length) false := by
  obtain ⟨piece, reader, w', hread, hpiece, hreader⟩ := h.read n w hs
  refine ⟨piece, { s with reader }, w', ?_, hpiece, hreader⟩
  rw [InputStream.read, InputStream.onReader, acted_onPart, hread]

theorem file_seekTo {s : InputStream ρ} {q : Nat} {fresh : Bool} (offset : UInt64) (w : W)
    (hs : At s.reader q fresh) :
    ∃ s' w', acted (InputStream.seekTo offset) s w = ((.ok offset, s'), w') ∧
      At s'.reader offset.toNat true := by
  obtain ⟨reader, w', hseek, hreader⟩ := h.seekTo offset w hs
  refine ⟨{ s with reader }, w', ?_, hreader⟩
  rw [InputStream.seekTo, InputStream.seek, InputStream.onReader, acted_onPart, hseek]

theorem file_position {s : InputStream ρ} {q : Nat} {fresh : Bool} (w : W)
    (hs : At s.reader q fresh) :
    ∃ offset s' w', acted InputStream.position s w = ((.ok offset, s'), w') ∧ offset.toNat = q ∧
      At s'.reader q true ∧ (buffered = false → s' = s ∧ w' = w) := by
  obtain ⟨offset, reader, w', hposition, hoffset, hreader, hsame⟩ := h.position w hs
  refine ⟨offset, { s with reader }, w', ?_, hoffset, hreader, fun hb => ?_⟩
  · rw [InputStream.position, InputStream.onReader, acted_onPart, hposition]
  · obtain ⟨rfl, rfl⟩ := hsame hb
    exact ⟨rfl, rfl⟩

theorem file_readAt {s : InputStream ρ} {q : Nat} {fresh : Bool} (offset : UInt64) (n : Nat) (w : W)
    (hs : At s.reader q fresh) :
    ∃ s' w', acted (InputStream.readAt offset n) s w =
        ((.ok ((data.drop offset.toNat).take n), s'), w') ∧
      At s'.reader (offset.toNat + ((data.drop offset.toNat).take n).length) false := by
  obtain ⟨s₁, w₁, hseek, hs₁⟩ := file_seekTo h offset w hs
  obtain ⟨piece, s₂, w₂, hread, hpiece, hs₂⟩ := file_read h n w₁ hs₁
  obtain rfl := hpiece.whole (.inl rfl)
  refine ⟨s₂, w₂, ?_, hs₂⟩
  rw [InputStream.readAt, acted_bind_ok hseek, hread]

theorem serve_follows {s : InputStream ρ} {q : Nat} {fresh : Bool} (request : Request) (w : W)
    (hs : At s.reader q fresh) :
    ∃ reply s' w' q' fresh', acted (serve request) s w = ((.ok reply, s'), w') ∧
      Follows data buffered q fresh request reply q' fresh' ∧ At s'.reader q' fresh' := by
  unfold serve
  cases request with
  | read n =>
    obtain ⟨piece, s', w', hread, hpiece, hs'⟩ := file_read h n w hs
    exact ⟨.bytes piece, s', w', _, _, acted_bind_ok hread _, .read hpiece, hs'⟩
  | seekTo offset =>
    obtain ⟨s', w', hseek, hs'⟩ := file_seekTo h offset w hs
    exact ⟨.place offset, s', w', _, _, acted_bind_ok hseek _, .seekTo offset, hs'⟩
  | position =>
    obtain ⟨offset, s', w', hposition, hoffset, hs', -⟩ := file_position h w hs
    exact ⟨.place offset, s', w', _, _, acted_bind_ok hposition _, .position hoffset, hs'⟩
  | readAt offset n =>
    obtain ⟨s', w', hread, hs'⟩ := file_readAt h offset n w hs
    exact ⟨.bytes _, s', w', _, _, acted_bind_ok hread _, .readAt rfl, hs'⟩

theorem serveAll_conforms (requests : List Request) {s : InputStream ρ} {q : Nat} {fresh : Bool}
    (w : W) (hs : At s.reader q fresh) :
    ∃ replies s' w' q' fresh', acted (serveAll requests) s w = ((.ok replies, s'), w') ∧
      Conforms data buffered q fresh requests replies ∧ At s'.reader q' fresh' := by
  induction requests generalizing s q fresh w with
  | nil => exact ⟨[], s, w, q, fresh, rfl, .nil, hs⟩
  | cons request requests ih =>
    obtain ⟨reply, s₁, w₁, q₁, fresh₁, hserve, hfollows, hs₁⟩ := serve_follows h request w hs
    obtain ⟨replies, s₂, w₂, q₂, fresh₂, hall, hconforms, hs₂⟩ := ih w₁ hs₁
    refine ⟨reply :: replies, s₂, w₂, q₂, fresh₂, ?_, .cons hfollows hconforms, hs₂⟩
    rw [serveAll, acted_bind_ok hserve, acted_bind_ok hall]
    rfl

end Files

variable [MonadStateOf Statistics (StateM W)]

omit [MonadStateOf Statistics (StateM W)] in
theorem opened_walks (hfits : data.length ≤ Offset.largest) (capacity? : Option Nat) :
    ∃ At : Cursor ⊕ ReadBuffer Cursor → Nat → Bool → Prop,
      Walks (W := W) data capacity?.isSome At ∧ At (opened data capacity?) 0 true := by
  cases capacity? with
  | none =>
    exact ⟨_, walks_among (cursor_walks hfits) .inl (fun _ _ _ => rfl)
      (fun _ _ _ => rfl), _, rfl, rfl, rfl⟩
  | some capacity =>
    exact ⟨_, walks_among (buffer_walks hfits) .inr (fun _ _ _ => rfl)
      (fun _ _ _ => rfl), _, rfl, ahead_empty ⟨rfl, rfl⟩ rfl⟩

/-- All requests are served, and the replies are those of a cursor. Without a buffer it changes
nothing to ask for the place. -/
theorem served_as_cursor (hfits : data.length ≤ Offset.largest) (capacity? : Option Nat)
    (source : StreamSource) (path : Path) (requests : List Request) (w : W) :
    ∃ replies s w', acted (serveAll requests)
        (InputStream.start (opened data capacity?) source path) w = ((.ok replies, s), w') ∧
      Conforms data capacity?.isSome 0 true requests replies ∧
      (capacity? = none → ∃ offset, acted InputStream.position s w' = ((.ok offset, s), w')) := by
  obtain ⟨At, hwalks, hstart⟩ := opened_walks (W := W) hfits capacity?
  have hcounted := counted_walks hwalks
  obtain ⟨replies, s, w', q, fresh, hall, hconforms, hs⟩ := serveAll_conforms hcounted requests
    (s := InputStream.start (opened data capacity?) source path) w hstart
  refine ⟨replies, s, w', hall, hconforms, ?_⟩
  rintro rfl
  obtain ⟨offset, s', w'', hposition, -, -, hsame⟩ := file_position hcounted w' hs
  obtain ⟨rfl, rfl⟩ := hsame rfl
  exact ⟨offset, hposition⟩

def digits : List Byte := [48, 49, 50, 51, 52, 53, 54, 55, 56, 57]

def digitStream : InputStream (Cursor ⊕ ReadBuffer Cursor) :=
  .start (opened digits (some 4)) .native .root

/-- A read of what is left in the buffer is short, and reading at a place is not. -/
theorem digits_served : digits.length ≤ Offset.largest ∧ ∃ s w,
    acted (serveAll [.read 2, .read 3, .readAt 1 5, .seekTo 12, .read 1]) digitStream
        Statistics.zero =
      ((.ok [.bytes [48, 49], .bytes [50, 51], .bytes [49, 50, 51, 52, 53], .place 12, .bytes []],
        s), w) ∧
    Conforms digits true 0 true [.read 2, .read 3, .readAt 1 5, .seekTo 12, .read 1]
      [.bytes [48, 49], .bytes [50, 51], .bytes [49, 50, 51, 52, 53], .place 12, .bytes []] := by
  have hfits : digits.length ≤ Offset.largest := by decide
  obtain ⟨replies, s, w, hall, hconforms, -⟩ := served_as_cursor hfits (some 4) .native
    .root [.read 2, .read 3, .readAt 1 5, .seekTo 12, .read 1] Statistics.zero
  have hreplies : Except.ok replies =
      (acted (serveAll [.read 2, .read 3, .readAt 1 5, .seekTo 12, .read 1]) digitStream
        Statistics.zero).1.1 := by
    rw [digitStream, hall]
  obtain rfl := Except.ok.inj hreplies
  exact ⟨hfits, s, w, hall, hconforms⟩

/-- What the third request is given depends on whether the stream was asked for its place. -/
theorem position_lengthens :
    (acted (serveAll [.read 2, .read 3]) digitStream Statistics.zero).1.1 =
      .ok [.bytes [48, 49], .bytes [50, 51]] ∧
    (acted (serveAll [.read 2, .position, .read 3]) digitStream Statistics.zero).1.1 =
      .ok [.bytes [48, 49], .place 2, .bytes [50, 51, 52]] :=
  ⟨rfl, rfl⟩

end Seeking

end VolumeFS
