import Mathlib.Data.List.GetD
import VolumeFS.Proofs.Client.Opening
import VolumeFS.Proofs.Client.Rename
import VolumeFS.Proofs.Volume.Streams

/-!
# Writing at positions

Any number of streams write into one file, each at a position of its own, which
it moves by seeking. What they do together is told by a row of bytes without end,
of which the file shows the beginning: a write puts its bytes at its position and
lengthens the file if they end behind it, and what nobody wrote is zero. A stream
whose file is gone cannot write or find the end, and changes nothing by trying.
-/

set_option autoImplicit false

namespace VolumeFS.Volume

/-- A file as its length and the bytes at all offsets, which are zero behind it. -/
@[ext]
structure Sparse where
  length : Nat
  byte : Nat → Byte
  beyond : ∀ i, length ≤ i → byte i = 0

namespace Sparse

def ofBytes (data : List Byte) : Sparse where
  length := data.length
  byte i := data.getD i 0
  beyond _ hi := List.getD_eq_default _ _ hi

/-- The bytes from an offset on are these, and the others are as they were. -/
def write (f : Sparse) (offset : Nat) (bytes : List Byte) : Sparse where
  length := max f.length (offset + bytes.length)
  byte i :=
    if offset ≤ i ∧ i < offset + bytes.length then bytes.getD (i - offset) 0 else f.byte i
  beyond i hi := by
    rw [if_neg (by omega)]
    exact f.beyond i (by omega)

theorem ofBytes_injective : Function.Injective ofBytes := by
  intro data data' h
  have hlength : data.length = data'.length := congrArg Sparse.length h
  refine List.ext_getElem hlength fun i hi hi' => ?_
  have hbyte : data.getD i 0 = data'.getD i 0 := congrFun (congrArg Sparse.byte h) i
  rwa [List.getD_eq_getElem _ _ hi, List.getD_eq_getElem _ _ hi'] at hbyte

theorem getD_padded (data : List Byte) (n i : Nat) :
    (data ++ List.replicate n 0).getD i 0 = data.getD i 0 := by
  by_cases hi : i < data.length
  · rw [List.getD_append _ _ _ _ hi]
  · rw [List.getD_append_right _ _ _ _ (by omega), List.getD_eq_default data _ (by omega),
      List.getD_eq_getElem?_getD, List.getElem?_replicate]
    split_ifs <;> rfl

/-- Writing into the bytes of a file, and filling the gap before them with zeros, is to write into
the endless row. -/
theorem ofBytes_overwrite (data : List Byte) (offset : Nat) (bytes : List Byte) :
    ofBytes (overwrite data offset bytes) = (ofBytes data).write offset bytes := by
  refine Sparse.ext (overwrite_length data offset bytes) (funext fun i => ?_)
  dsimp only [ofBytes, write]
  have hpadded := getD_padded data (offset + bytes.length - data.length)
  unfold overwrite
  generalize hp : data ++ List.replicate (offset + bytes.length - data.length) 0 = padded at hpadded
  have hlength : offset + bytes.length ≤ padded.length := by
    rw [← hp, List.length_append, List.length_replicate]
    omega
  have hbefore : (padded.take offset).length = offset := by
    rw [List.length_take]
    omega
  have hbetween : (padded.take offset ++ bytes).length = offset + bytes.length := by
    rw [List.length_append, hbefore]
  rw [← hpadded i]
  by_cases hi : i < offset + bytes.length
  · rw [List.getD_append _ _ _ _ (by omega)]
    by_cases hoffset : offset ≤ i
    · rw [if_pos ⟨hoffset, hi⟩, List.getD_append_right _ _ _ _ (by omega), hbefore]
    · rw [if_neg (fun h => hoffset h.1), List.getD_append _ _ _ _ (by omega),
        List.getD_eq_getElem?_getD, List.getD_eq_getElem?_getD, List.getElem?_take_of_lt (by omega)]
  · rw [if_neg (fun h => hi h.2), List.getD_append_right _ _ _ _ (by omega), hbetween,
      List.getD_eq_getElem?_getD, List.getD_eq_getElem?_getD, List.getElem?_drop]
    congr 2
    omega

end Sparse

section Seek

variable (distance : Int) (writer : Writer) (world : World)

/-- The stream at a place, or where it was if there is no such place. -/
def sought (writer : Writer) (world : World) :
    Option UInt64 → (Except IoError UInt64 × Writer) × World
  | some position => ((.ok position, { writer with position }), world)
  | none => ((.error (.custom .invalidInput "seek before start of file"), writer), world)

theorem acted_seek_start (offset : UInt64) :
    acted (VolumeAccess.seekWriter (.start offset) : StreamT Writer Run UInt64) writer world =
      sought writer world (some offset) := rfl

theorem acted_seek_current :
    acted (VolumeAccess.seekWriter (.current distance) : StreamT Writer Run UInt64) writer world =
      sought writer world (Offset.moved? writer.position.toNat distance) := by
  have htarget : writer.target? 0 (.current distance) =
      Offset.moved? writer.position.toNat distance := rfl
  change acted (Writer.seek (.current distance)) writer world = _
  unfold Writer.seek
  have hlength : acted (Writer.length (.current distance) : StreamT Writer Run Nat) writer world =
      ((.ok 0, writer), world) := rfl
  rw [acted_bind_ok hlength, acted_get_bind, htarget]
  cases Offset.moved? writer.position.toNat distance <;> rfl

theorem acted_seek_stop :
    acted (VolumeAccess.seekWriter (.stop distance) : StreamT Writer Run UInt64) writer world =
      (world.volume.contents? writer.key).elim ((.error (gone writer.key), writer), world)
        fun data => sought writer world (Offset.moved? data.length distance) := by
  change acted (Writer.seek (.stop distance)) writer world = _
  unfold Writer.seek
  have hlength : acted (Writer.length (.stop distance) : StreamT Writer Run Nat) writer world =
      (((world.volume.contents? writer.key).elim (.error (gone writer.key))
        fun data => .ok data.length, writer), world) := by
    unfold Writer.length
    rw [acted_get_bind]
    dsimp only
    rw [acted_lift_bind, getThe_volume]
    cases world.volume.contents? writer.key <;> rfl
  rw [acted_bind, hlength]
  cases world.volume.contents? writer.key with
  | none => rfl
  | some data =>
    have htarget : writer.target? data.length (.stop distance) =
        Offset.moved? data.length distance := rfl
    simp only [Option.elim_some]
    rw [acted_get_bind, htarget]
    cases Offset.moved? data.length distance <;> rfl

end Seek

inductive Move where
  | write (bytes : List Byte)
  | seek (place : SeekFrom)

namespace Move

def call (i : Nat) : Move → Call
  | .write bytes => .write i bytes
  | .seek place => .seek i place

def answer (m : Move) (writer : Writer) (world : World) : Except IoError Nat :=
  match m with
  | .write bytes => (acted (Writable.write bytes : StreamT Writer Run Nat) writer world).1.1
  | .seek place =>
    (acted (VolumeAccess.seekWriter place : StreamT Writer Run UInt64) writer world).1.1.map
      UInt64.toNat

theorem answer_write {bytes : List Byte} {writer writer' : Writer} {world world' : World}
    {result : Except IoError Nat}
    (h : acted (Writable.write bytes : StreamT Writer Run Nat) writer world =
      ((result, writer'), world')) : answer (.write bytes) writer world = result := by
  change (acted (Writable.write bytes : StreamT Writer Run Nat) writer world).1.1 = _
  rw [h]

theorem answer_seek {place : SeekFrom} {writer writer' : Writer} {world world' : World}
    {result : Except IoError UInt64}
    (h : acted (VolumeAccess.seekWriter place : StreamT Writer Run UInt64) writer world =
      ((result, writer'), world')) :
    answer (.seek place) writer world = result.map UInt64.toNat := by
  change (acted (VolumeAccess.seekWriter place : StreamT Writer Run UInt64) writer world).1.1.map
    UInt64.toNat = _
  rw [h]

end Move

/-- A file, if it is there, and the positions of the streams. -/
structure Reference where
  file : Option Sparse
  position : Nat → Nat

namespace Reference

def moved (r : Reference) (i place : Nat) : Reference :=
  { r with position := Function.update r.position i place }

/-- Where a seek leads, which may be no offset; from the end, only if the file is there. -/
def target? (r : Reference) (i : Nat) : SeekFrom → Option Int
  | .start offset => some offset.toNat
  | .current distance => some (r.position i + distance)
  | .stop distance => r.file.map fun f => f.length + distance

/-- What a stream on the file at this key answers, and what there is afterwards. -/
def step (k : Key) (r : Reference) (i : Nat) : Move → Except IoError Nat × Reference
  | .write bytes =>
    match r.file with
    | none => (.error (gone k), r)
    | some f =>
      let moved := r.moved i (r.position i + bytes.length)
      (.ok bytes.length, { moved with file := some (f.write (r.position i) bytes) })
  | .seek place =>
    match r.target? i place with
    | none => (.error (gone k), r)
    | some target =>
      if 0 ≤ target ∧ target ≤ Offset.largest then (.ok target.toNat, r.moved i target.toNat)
      else (.error (.custom .invalidInput "seek before start of file"), r)

def run (k : Key) : List (Nat × Move) → Reference → List (Except IoError Nat) × Reference
  | [], r => ([], r)
  | (i, m) :: moves, r =>
    let (answer, r) := r.step k i m
    let (answers, r) := run k moves r
    (answer :: answers, r)

end Reference

def Move.Within (r : Reference) (i : Nat) : Move → Prop
  | .write bytes => r.file ≠ none → r.position i + bytes.length ≤ longest
  | .seek _ => True

def Within (k : Key) : List (Nat × Move) → Reference → Prop
  | [], _ => True
  | (i, m) :: moves, r => m.Within r i ∧ Within k moves (r.step k i m).2

def Entry.tag (e : Entry) : Bool × UInt32 × UInt32 × UInt32 :=
  (e.content.isDirectory, e.mode, e.uid, e.gid)

structure Stands (k : Key) (s : Use) (r : Reference) : Prop where
  file : r.file = (s.world.volume.contents? k).map Sparse.ofBytes
  position : ∀ i writer, s.writers[i]? = some writer → writer.key = k →
    r.position i = writer.position.toNat

/-- All is kept besides the bytes of the file and the positions of these streams. -/
structure Kept (k : Key) (movers : List Nat) (s s' : Use) : Prop where
  others : ∀ k', k' ≠ k → s'.world.volume.find? k' = s.world.volume.find? k'
  tag : (s'.world.volume.find? k).map Entry.tag = (s.world.volume.find? k).map Entry.tag
  rest : s'.world = { s.world with
    volume := { s.world.volume with entries := s'.world.volume.entries } }
  keys : s'.writers.map Writer.key = s.writers.map Writer.key
  streams : ∀ j, j ∉ movers → s'.writers[j]? = s.writers[j]?

section Step

variable {k : Key} {s : Use} {i : Nat} {writer : Writer} (hi : s.writers[i]? = some writer)

include hi

theorem onWriter_acted {α : Type} (x : StreamT Writer Run α) :
    s.onWriter i x =
      ⟨(acted x writer s.world).2, s.writers.set i (acted x writer s.world).1.2⟩ := by
  unfold Use.onWriter
  rw [hi]

/-- A stream that stays as it is, in a world that does. -/
theorem onWriter_still {α : Type} {x : StreamT Writer Run α} {result : Except IoError α}
    (h : acted x writer s.world = ((result, writer), s.world)) : s.onWriter i x = s := by
  rw [onWriter_acted hi, h]
  obtain ⟨hlt, hget⟩ := List.getElem?_eq_some_iff.1 hi
  have hset : s.writers.set i writer = s.writers := by
    rw [← hget, List.set_getElem_self]
  exact congrArg (Use.mk s.world) hset

end Step

theorem Kept.refl (k : Key) (movers : List Nat) (s : Use) : Kept k movers s s :=
  ⟨fun _ _ => rfl, rfl, rfl, rfl, fun _ _ => rfl⟩

theorem Kept.next {k : Key} {i : Nat} {movers : List Nat} {s s₁ s₂ : Use} (h₁ : Kept k [i] s s₁)
    (h₂ : Kept k movers s₁ s₂) : Kept k (i :: movers) s s₂ where
  others := fun k' hk => (h₂.others k' hk).trans (h₁.others k' hk)
  tag := h₂.tag.trans h₁.tag
  rest := by rw [h₂.rest, h₁.rest]
  keys := h₂.keys.trans h₁.keys
  streams := fun j hj => by
    rw [List.mem_cons, not_or] at hj
    exact (h₂.streams j hj.2).trans (h₁.streams j (by simpa using hj.1))

/-- Nothing is written where no file is. -/
theorem writeAt_gone {k : Key} {v : Volume} (h : v.contents? k = none) (offset : Nat)
    (bytes : List Byte) : writeAt k offset bytes v = .error (gone k) := by
  unfold contents? at h
  unfold writeAt
  cases hfind : v.find? k with
  | none => rfl
  | some e =>
    rw [hfind] at h
    obtain ⟨data | _, mode, uid, gid⟩ := e
    · cases h
    · rfl

theorem writeAt_file {k : Key} {v : Volume} {data : List Byte} {mode uid gid : UInt32}
    (h : v.find? k = some ⟨.file data, mode, uid, gid⟩) {offset : Nat} {bytes : List Byte}
    (hfits : offset + bytes.length ≤ longest) : writeAt k offset bytes v =
      .ok (v.put k ⟨.file (overwrite data offset bytes), mode, uid, gid⟩) := by
  unfold writeAt
  simp only [h]
  rw [if_neg (Nat.not_lt.2 hfits)]
  rfl

section Follow

variable {k : Key} {s : Use} {r : Reference} {i : Nat} {writer : Writer}

/-- What the stream does is what the reference does; and where it fails, nothing changes. -/
structure Follows (k : Key) (s : Use) (r : Reference) (i : Nat) (writer : Writer) (m : Move) :
    Prop where
  answer : m.answer writer s.world = (r.step k i m).1
  stands : Stands k ((m.call i).step s) (r.step k i m).2
  kept : Kept k [i] s ((m.call i).step s)
  failed : ∀ e, m.answer writer s.world = .error e →
    (m.call i).step s = s ∧ (r.step k i m).2 = r

theorem follows_failure {m : Move} {e : IoError} (hr : Stands k s r)
    (hanswer : m.answer writer s.world = .error e) (hstep : (m.call i).step s = s)
    (hreference : r.step k i m = (.error e, r)) : Follows k s r i writer m where
  answer := by rw [hanswer, hreference]
  stands := by rwa [hstep, hreference]
  kept := by
    rw [hstep]
    exact .refl k [i] s
  failed := fun _ _ => ⟨hstep, by rw [hreference]⟩

variable (hi : s.writers[i]? = some writer) (hr : Stands k s r)

include hi

theorem keys_set (position : UInt64) :
    (s.writers.set i { writer with position }).map Writer.key = s.writers.map Writer.key := by
  obtain ⟨hlt, hget⟩ := List.getElem?_eq_some_iff.1 hi
  refine List.ext_getElem (by simp) fun j hj hj' => ?_
  simp only [List.getElem_map, List.getElem_set]
  split_ifs with hij
  · subst hij
    rw [hget]
  · rfl

include hr

/-- The stream stands at a new position, and the file has its bytes. -/
theorem Stands.set {world : World} {file : Option Sparse} {position : UInt64}
    (hfile : file = (world.volume.contents? k).map Sparse.ofBytes) :
    Stands k ⟨world, s.writers.set i { writer with position }⟩
      { r.moved i position.toNat with file } where
  file := hfile
  position := by
    intro j other hj hother
    change Function.update r.position i position.toNat j = _
    by_cases hij : j = i
    · subst hij
      have hlt : j < s.writers.length := (List.getElem?_eq_some_iff.1 hi).1
      rw [List.getElem?_set_self hlt] at hj
      cases hj
      rw [Function.update_self]
    · rw [List.getElem?_set_ne (Ne.symm hij)] at hj
      rw [Function.update_of_ne hij, hr.position j other hj hother]

/-- A seek that leads somewhere. -/
theorem follows_seek {place : SeekFrom} {position : UInt64} (hseek :
      acted (VolumeAccess.seekWriter place : StreamT Writer Run UInt64) writer s.world =
        ((.ok position, { writer with position }), s.world))
    (hreference : r.step k i (.seek place) = (.ok position.toNat, r.moved i position.toNat)) :
    Follows k s r i writer (.seek place) := by
  have hanswer : Move.answer (.seek place) writer s.world = .ok position.toNat :=
    Move.answer_seek hseek
  have hstep : (Move.call i (.seek place)).step s =
      ⟨s.world, s.writers.set i { writer with position }⟩ := by
    change s.onWriter i (VolumeAccess.seekWriter place) = _
    rw [onWriter_acted hi, hseek]
  refine ⟨by rw [hanswer, hreference], ?_, ?_, fun e he => ?_⟩
  · rw [hstep, hreference]
    exact hr.set hi hr.file
  · rw [hstep]
    exact ⟨fun _ _ => rfl, rfl, rfl, keys_set hi position,
      fun j hj => List.getElem?_set_ne (by simpa [eq_comm] using hj)⟩
  · rw [hanswer] at he
    cases he

/-- A seek by a distance from a place. -/
theorem follows_distance {place : SeekFrom} {start : Nat} {distance : Int} (hseek :
      acted (VolumeAccess.seekWriter place : StreamT Writer Run UInt64) writer s.world =
        sought writer s.world (Offset.moved? start distance))
    (htarget : r.target? i place = some (start + distance)) :
    Follows k s r i writer (.seek place) := by
  have hreference : r.step k i (.seek place) =
      if 0 ≤ start + distance ∧ start + distance ≤ Offset.largest then
        (.ok (start + distance).toNat, r.moved i (start + distance).toNat)
      else (.error (.custom .invalidInput "seek before start of file"), r) := by
    simp only [Reference.step, htarget]
  unfold Offset.moved? at hseek
  dsimp only at hseek
  by_cases hrange : 0 ≤ start + distance ∧ start + distance ≤ Offset.largest
  · rw [if_pos hrange] at hseek hreference
    have hword : (UInt64.ofNat (start + distance).toNat).toNat = (start + distance).toNat := by
      have hle := hrange.2
      unfold Offset.largest at hle
      rw [UInt64.toNat_ofNat']
      omega
    exact follows_seek hi hr hseek (by rw [hword]; exact hreference)
  · rw [if_neg hrange] at hseek hreference
    exact follows_failure hr (Move.answer_seek hseek) (onWriter_still hi hseek) hreference

variable (hkey : writer.key = k)

include hkey

theorem follows_from_end (distance : Int) : Follows k s r i writer (.seek (.stop distance)) := by
  have hfile := hr.file
  have hseek := acted_seek_stop distance writer s.world
  rw [hkey] at hseek
  cases hdata : s.world.volume.contents? k with
  | none =>
    rw [hdata] at hfile hseek
    have hreference : r.step k i (.seek (.stop distance)) = (.error (gone k), r) := by
      simp only [Reference.step, Reference.target?, hfile, Option.map_none]
    exact follows_failure hr (Move.answer_seek hseek) (onWriter_still hi hseek) hreference
  | some data =>
    rw [hdata] at hfile hseek
    have htarget : r.target? i (.stop distance) = some (data.length + distance) := by
      simp only [Reference.target?, hfile, Option.map_some]
      rfl
    exact follows_distance hi hr hseek htarget

theorem follows_seeks (place : SeekFrom) : Follows k s r i writer (.seek place) := by
  cases place with
  | start offset =>
    refine follows_seek hi hr (acted_seek_start writer s.world offset) ?_
    have hle := Offset.toNat_le_largest offset
    have hrange : 0 ≤ (offset.toNat : Int) ∧ (offset.toNat : Int) ≤ Offset.largest := by omega
    simp only [Reference.step, Reference.target?, if_pos hrange, Int.toNat_natCast]
  | current distance =>
    refine follows_distance hi hr (acted_seek_current distance writer s.world) ?_
    rw [Reference.target?, hr.position i writer hi hkey]
  | stop distance => exact follows_from_end hi hr hkey distance

theorem follows_write {bytes : List Byte} (hwithin : (Move.write bytes).Within r i) :
    Follows k s r i writer (.write bytes) := by
  have hfile := hr.file
  have hposition : r.position i = writer.position.toNat := hr.position i writer hi hkey
  have hacted := acted_write bytes writer s.world
  subst hkey
  cases hdata : s.world.volume.contents? writer.key with
  | none =>
    rw [hdata] at hfile
    rw [writeAt_gone hdata] at hacted
    have hreference : r.step writer.key i (.write bytes) = (.error (gone writer.key), r) := by
      simp only [Reference.step, hfile, Option.map_none]
    exact follows_failure hr (Move.answer_write hacted) (onWriter_still hi hacted) hreference
  | some data =>
    rw [hdata] at hfile
    obtain ⟨⟨content, mode, uid, gid⟩, hfind, hcontent⟩ := contents_eq_some.1 hdata
    obtain rfl : content = .file data := hcontent
    have hfits : writer.position.toNat + bytes.length ≤ longest := by
      rw [← hposition]
      exact hwithin (by simp [hfile])
    have hword : (writer.position + UInt64.ofNat bytes.length).toNat =
        writer.position.toNat + bytes.length := by
      unfold longest at hfits
      rw [UInt64.toNat_add, UInt64.toNat_ofNat']
      omega
    rw [writeAt_file hfind hfits] at hacted
    dsimp only at hacted
    have hnew := find?_put_self writer.key
      ⟨.file (overwrite data writer.position.toNat bytes), mode, uid, gid⟩ s.world.volume
    have hanswer := Move.answer_write hacted
    have hstep := onWriter_acted hi (Writable.write bytes : StreamT Writer Run Nat)
    rw [hacted] at hstep
    have hreference : r.step writer.key i (.write bytes) = (.ok bytes.length,
        { r.moved i (writer.position + UInt64.ofNat bytes.length).toNat with
          file := some ((Sparse.ofBytes data).write writer.position.toNat bytes) }) := by
      simp only [Reference.step, hfile, Option.map_some, hposition, hword]
    refine ⟨by rw [hanswer, hreference], ?_, ?_, fun e he => ?_⟩
    · rw [hreference]
      change Stands _ (s.onWriter i (Writable.write bytes)) _
      rw [hstep]
      refine hr.set hi ?_
      rw [← Sparse.ofBytes_overwrite]
      exact (congrArg (Option.map Sparse.ofBytes)
        (contents_eq_some.2 ⟨_, hnew, rfl⟩)).symm
    · change Kept _ [i] s (s.onWriter i (Writable.write bytes))
      rw [hstep]
      refine ⟨fun k' hk => find?_put_of_ne hk _ _, ?_, rfl, keys_set hi _,
        fun j hj => List.getElem?_set_ne (by simpa [eq_comm] using hj)⟩
      rw [hfind]
      exact (congrArg (Option.map Entry.tag) hnew).trans rfl
    · rw [hanswer] at he
      cases he

theorem follows_move {m : Move} (hwithin : m.Within r i) : Follows k s r i writer m := by
  cases m with
  | write bytes => exact follows_write hi hr hkey hwithin
  | seek place => exact follows_seeks hi hr hkey place

end Follow

def answers : List (Nat × Move) → Use → List (Option (Except IoError Nat))
  | [], _ => []
  | (i, m) :: moves, s =>
    (s.writers[i]?.map fun writer => m.answer writer s.world) ::
      answers moves ((m.call i).step s)

def OnFile (k : Key) (s : Use) (i : Nat) : Prop :=
  ∃ writer, s.writers[i]? = some writer ∧ writer.key = k

theorem OnFile.kept {k : Key} {movers : List Nat} {s s' : Use} {i : Nat} (h : OnFile k s i)
    (hkept : Kept k movers s s') : OnFile k s' i := by
  obtain ⟨writer, hi, hkey⟩ := h
  have hmap : (s'.writers[i]?).map Writer.key = some k := by
    rw [← List.getElem?_map, hkept.keys, List.getElem?_map, hi, Option.map_some, hkey]
  exact Option.map_eq_some_iff.1 hmap

theorem run_follows {k : Key} (moves : List (Nat × Move)) {s : Use} {r : Reference}
    (hfile : ∀ move ∈ moves, OnFile k s move.1) (hr : Stands k s r) (hwithin : Within k moves r) :
    answers moves s = (r.run k moves).1.map some ∧
    Stands k (calls (moves.map fun move => move.2.call move.1) s) (r.run k moves).2 ∧
    Kept k (moves.map Prod.fst) s (calls (moves.map fun move => move.2.call move.1) s) := by
  induction moves generalizing s r with
  | nil => exact ⟨rfl, hr, .refl k [] s⟩
  | cons move moves ih =>
    obtain ⟨i, m⟩ := move
    obtain ⟨⟨writer, hi, hkey⟩, hrest⟩ := List.forall_mem_cons.1 hfile
    have hstep := follows_move hi hr hkey hwithin.1
    obtain ⟨hanswers, hstands, hkept⟩ :=
      ih (fun other hother => (hrest other hother).kept hstep.kept) hstep.stands hwithin.2
    refine ⟨?_, hstands, hstep.kept.next hkept⟩
    have hfirst : (s.writers[i]?.map fun writer => m.answer writer s.world) =
        some (r.step k i m).1 := by
      rw [hi, Option.map_some, hstep.answer]
    exact congrArg₂ List.cons hfirst hanswers

def Reference.of (k : Key) (s : Use) : Reference :=
  ⟨(s.world.volume.contents? k).map Sparse.ofBytes,
    fun i => (s.writers[i]?.map fun writer => writer.position.toNat).getD 0⟩

theorem stands_of (k : Key) (s : Use) : Stands k s (.of k s) where
  file := rfl
  position := by
    intro i writer hi _
    change (s.writers[i]?.map fun writer => writer.position.toNat).getD 0 = _
    rw [hi]
    rfl

theorem append_position {c : Client Run} {w : World} {p : Path} {x : List String}
    {data : List Byte} (hw : w.volume.WellFormed) (hp : c.resolver.resolve p = .ok (.ofNames x))
    (hdata : w.volume.contents? ⟨x⟩ = some data) :
    ∃ position : UInt64, position.toNat = data.length ∧ outcome (c.append p) w =
      (.ok (c.output ⟨⟨x⟩, position⟩ c.bufferSize (.ofNames x)), w) := by
  obtain ⟨e, he, hcontent⟩ := contents_eq_some.1 hdata
  have hlength : data.length ≤ longest := by
    have hbound := hw.length _ e he
    rwa [hcontent] at hbound
  have hentry : (w.entries x).map Entry.content = some (.file data) := by
    rw [World.entries, he, Option.map_some, hcontent]
  refine ⟨_, toNat_length hlength, ?_⟩
  rw [Client.append_outcome hp (hw.normal x he), hentry]

/-- Streams on one file, and what they do, are as the reference says as long as no write ends behind
what a file can hold. All else on the volume stays, and a stream opened for appending begins where
the file ends. -/
theorem positioned_writes :
    Function.Injective Sparse.ofBytes ∧
    (∀ k s i writer m, s.writers[i]? = some writer → writer.key = k →
      Move.Within (.of k s) i m → Follows k s (.of k s) i writer m) ∧
    (∀ k s moves, (∀ move ∈ moves, OnFile k s move.1) → Within k moves (.of k s) →
      answers moves s = ((Reference.of k s).run k moves).1.map some ∧
      Stands k (calls (moves.map fun move => move.2.call move.1) s)
        ((Reference.of k s).run k moves).2 ∧
      Kept k (moves.map Prod.fst) s (calls (moves.map fun move => move.2.call move.1) s)) ∧
    ∀ (c : Client Run) w p x data, w.volume.Reachable → c.resolver.resolve p = .ok (.ofNames x) →
      w.volume.contents? ⟨x⟩ = some data →
      ∃ position : UInt64, position.toNat = data.length ∧ outcome (c.append p) w =
        (.ok (c.output ⟨⟨x⟩, position⟩ c.bufferSize (.ofNames x)), w) := by
  refine ⟨Sparse.ofBytes_injective, fun k s i writer m hi hkey hwithin => ?_,
    fun k s moves hfile hwithin => ?_, fun c w p x data hw => append_position hw.wellFormed⟩
  · exact follows_move hi (stands_of k s) hkey hwithin
  · exact run_follows moves hfile (stands_of k s) hwithin

def shared : Use :=
  calls [.createFile "/f", .openWriter "/f", .openWriter "/f", .write 0 [1, 2, 3]]
    (.start "v" 0 0 default)

/-- One stream goes past the end and writes there, and the other writes at the start. -/
def scattered : List (Nat × Move) :=
  [(0, .seek (.current 2)), (0, .write [9]), (1, .write [7, 8]), (1, .seek (.stop (-7)))]

def stranded : Use := calls [.delete "/f"] shared

/-- The gap is filled with zeros, and the seek before the start fails. Once the file is gone a write
fails and changes nothing. -/
theorem shared_scattered :
    answers scattered shared = [some (.ok 5), some (.ok 1), some (.ok 2),
      some (.error (.custom .invalidInput "seek before start of file"))] ∧
    (calls (scattered.map fun move => move.2.call move.1) shared).world.volume.contents? ⟨["f"]⟩ =
      some [7, 8, 3, 0, 0, 9] ∧
    Kept ⟨["f"]⟩ [0, 0, 1, 1] shared
      (calls (scattered.map fun move => move.2.call move.1) shared) ∧
    Move.answer (.write [4]) ⟨⟨["f"]⟩, 3⟩ stranded.world = .error (gone ⟨["f"]⟩) ∧
    (Move.call 0 (.write [4])).step stranded = stranded ∧
    ∃ position : UInt64, position.toNat = 3 ∧
      outcome (Client.visitor.append (.ofNames ["a", "f"])) Client.shelf =
        (.ok (Client.visitor.output ⟨⟨["a", "f"]⟩, position⟩ 4096 (.ofNames ["a", "f"])),
          Client.shelf) := by
  obtain ⟨-, hstep, hrun, happend⟩ := positioned_writes
  have hfile : ∀ move ∈ scattered, OnFile ⟨["f"]⟩ shared move.1 := by
    simp only [scattered, List.forall_mem_cons]
    exact ⟨⟨_, rfl, rfl⟩, ⟨_, rfl, rfl⟩, ⟨_, rfl, rfl⟩, ⟨_, rfl, rfl⟩, by simp⟩
  have hwithin : Within ⟨["f"]⟩ scattered (.of ⟨["f"]⟩ shared) :=
    ⟨trivial, fun _ => by decide, fun _ => by decide, trivial, trivial⟩
  obtain ⟨hanswers, hstands, hkept⟩ := hrun _ _ _ hfile hwithin
  have happended := happend Client.visitor Client.shelf (.ofNames ["a", "f"]) ["a", "f"] [1, 2, 3]
    Client.shelf_reachable rfl rfl
  have hstranded := hstep ⟨["f"]⟩ stranded 0 ⟨⟨["f"]⟩, 3⟩ (.write [4]) rfl rfl
    fun hfile => absurd rfl hfile
  have hanswer := hstranded.answer
  exact ⟨hanswers, rfl, hkept, hanswer, (hstranded.failed _ hanswer).1, happended⟩

end VolumeFS.Volume
