import VolumeFS.Proofs.Stream.Accepts

/-!
# Copying between streams

A stream feeds if it delivers and reading it changes no file, and it fills if it
accepts whatever a file can hold; neither minds what is counted. Buffers and
counters around a stream keep both. Hence copying adds exactly what was left to
read.
-/

set_option autoImplicit false

namespace VolumeFS

/-- The two worlds differ at most in what was counted, waited and printed. -/
structure World.SameFiles (w w' : World) : Prop where
  volume : w'.volume = w.volume
  disk : w'.disk = w.disk

theorem World.SameFiles.refl (w : World) : w.SameFiles w := ⟨rfl, rfl⟩

theorem World.SameFiles.trans {w₁ w₂ w₃ : World} (h : w₁.SameFiles w₂) (h' : w₂.SameFiles w₃) :
    w₁.SameFiles w₃ :=
  ⟨h'.volume.trans h.volume, h'.disk.trans h.disk⟩

theorem World.sameFiles_tallied (f : Statistics → Statistics) (w : World) :
    w.SameFiles (Counted.tallied f w) := ⟨rfl, rfl⟩

namespace Stream

variable {ρ ω : Type}

/-- `Left` tells the bytes that a stream has still to hand out. -/
structure Feeds [Readable ρ Run] (Left : ρ → World → List Byte → Prop) : Prop where
  same : ∀ {r w w' bytes}, w.SameFiles w' → Left r w bytes → Left r w' bytes
  read : ∀ {r w bytes n}, 0 < n → Left r w bytes →
    ∃ piece rest r' w', acted (Readable.read n) r w = ((.ok piece, r'), w') ∧
      bytes = piece ++ rest ∧ (piece = [] → rest = []) ∧ w.SameFiles w' ∧ Left r' w' rest

/-- `Has` tells the bytes that were written to a stream and to its file before, and `Wrote` what
the file holds in the end. -/
structure Fills [Writable ω Run] (Has : ω → World → List Byte → Prop)
    (Wrote : World → List Byte → Prop) : Prop extends Accepts Volume.longest Has Wrote where
  same : ∀ {s w w' data}, w.SameFiles w' → Has s w data → Has s w' data

def LeftSince (Left : ρ → World → List Byte → Prop) (before : World) (r : ρ) (w : World)
    (bytes : List Byte) : Prop :=
  Left r w bytes ∧ before.SameFiles w

theorem Feeds.delivers [Readable ρ Run] {Left : ρ → World → List Byte → Prop} (h : Feeds Left)
    (before : World) : Delivers (LeftSince Left before) where
  read := by
    rintro r w bytes n hn ⟨hleft, hsame⟩
    obtain ⟨piece, rest, r', w', hread, hsplit, hend, hsame', hrest⟩ := h.read hn hleft
    exact ⟨piece, rest, r', w', hread, hsplit, hend, hrest, hsame.trans hsame'⟩

theorem feeds_of_delivers [Readable ρ Run] {Left : ρ → World → List Byte → Prop}
    (hsame : ∀ {r w w' bytes}, w.SameFiles w' → Left r w bytes → Left r w' bytes)
    (h : ∀ before, Delivers (LeftSince Left before)) : Feeds Left where
  same := hsame
  read := by
    intro r w bytes n hn hleft
    obtain ⟨piece, rest, r', w', hread, hsplit, hend, hrest, hsame'⟩ :=
      (h w).read hn ⟨hleft, .refl w⟩
    exact ⟨piece, rest, r', w', hread, hsplit, hend, hsame', hrest⟩

section Copy

variable [Readable ρ Run] [Writable ω Run] {Left : ρ → World → List Byte → Prop}
  {Has : ω → World → List Byte → Prop} {Wrote : World → List Byte → Prop}

/-- Copying ends once so many pieces are allowed as there are bytes left, and one more. -/
theorem Fills.copy (h : Fills Has Wrote) (hr : Feeds Left)
    (hleft : ∀ {r w w' bytes}, Left r w bytes → Left r w' bytes) (fuel : Nat) {r : ρ} {s : ω}
    {w : World} {bytes data : List Byte} (hfuel : bytes.length < fuel) (hfeed : Left r w bytes)
    (hs : Has s w data) (hlen : data.length + bytes.length ≤ Volume.longest) :
    ∃ r' s' w', outcome (Stream.copy fuel r s) w = (.ok (r', s'), w') ∧
      Has s' w' (data ++ bytes) := by
  induction fuel generalizing r s w bytes data with
  | zero => omega
  | succ fuel ih =>
    obtain ⟨piece, rest, r₁, w₁, hread, rfl, hend, hsame, hfeed₁⟩ :=
      hr.read (n := pieceSize) (by decide) hfeed
    have hs₁ := h.same hsame hs
    rw [Stream.copy, outcome_bind_ok (outcome_orFault_ok hread)]
    dsimp only
    cases piece with
    | nil =>
      obtain rfl := hend rfl
      obtain ⟨s₂, w₂, hflush, hs₂⟩ := h.flush (by simpa using hlen) hs₁
      refine ⟨r₁, s₂, w₂, ?_, by simpa using hs₂⟩
      rw [if_pos (by rfl), outcome_bind_ok (outcome_orFault_ok hflush)]
      rfl
    | cons b bs =>
      simp only [List.length_append, List.length_cons] at hfuel hlen
      obtain ⟨s₂, w₂, hall, hs₂⟩ := h.writeAll (.custom .writeZero "write zero byte into writer")
        (b :: bs) hs₁ (by
          rw [List.length_cons]
          omega)
      obtain ⟨r₃, s₃, w₃, hcopy, hs₃⟩ := ih (by omega) (hleft hfeed₁) hs₂ (by
        simp only [List.length_append, List.length_cons]
        omega)
      refine ⟨r₃, s₃, w₃, ?_, by simpa using hs₃⟩
      rw [if_neg (by simp), outcome_bind_ok (outcome_orFault_ok hall)]
      exact hcopy

end Copy

end Stream

theorem ReadBuffer.feeds {ρ : Type} [Readable ρ Run] {Left : ρ → World → List Byte → Prop}
    (h : Stream.Feeds Left) : Stream.Feeds (Behind Left) := by
  refine Stream.feeds_of_delivers ?_ fun before => ?_
  · rintro b w w' bytes hsame ⟨rest, rfl, hrest⟩
    exact ⟨rest, rfl, h.same hsame hrest⟩
  · refine (ReadBuffer.delivers (h.delivers before)).of_iff fun b w bytes => ?_
    constructor
    · rintro ⟨rest, hsplit, hrest, hsame⟩
      exact ⟨⟨rest, hsplit, hrest⟩, hsame⟩
    · rintro ⟨⟨rest, hsplit, hrest⟩, hsame⟩
      exact ⟨rest, hsplit, hrest, hsame⟩

theorem WriteBuffer.fills {ω : Type} [Writable ω Run] {Has : ω → World → List Byte → Prop}
    {Wrote : World → List Byte → Prop} (h : Stream.Fills Has Wrote) :
    Stream.Fills (Holding Has) Wrote where
  toAccepts := WriteBuffer.accepts h.toAccepts
  same := by
    rintro b w w' data hsame ⟨passed, rfl, hpassed⟩
    exact ⟨passed, rfl, h.same hsame hpassed⟩

namespace Counted

variable {σ : Type}

theorem feeds [Readable σ Run] {Left : σ → World → List Byte → Prop} (h : Stream.Feeds Left) :
    Stream.Feeds (fun (c : Counted σ) w bytes => Left c.inner w bytes) where
  same := fun hsame hleft => h.same hsame hleft
  read := by
    intro c w bytes n hn hleft
    have hdelivers := delivers (fun _ => h.delivers w)
      (fun {now f s w rest} hrest => ⟨h.same (w.sameFiles_tallied f) hrest.1,
        hrest.2.trans (w.sameFiles_tallied f)⟩) .zero bytes
    obtain ⟨piece, rest, r', w', hread, hsplit, hend, -, -, -, ⟨hrest, hsame⟩, -⟩ :=
      hdelivers.read hn (told_fresh ⟨hleft, .refl w⟩)
    exact ⟨piece, rest, r', w', hread, hsplit, hend, hsame, hrest⟩

def Counting (Has : σ → World → List Byte → Prop) (c : Counted σ) (w : World)
    (data : List Byte) : Prop :=
  Has c.inner w data ∧ c.count = UInt64.ofNat data.length

theorem fills [Writable σ Run] {Has : σ → World → List Byte → Prop}
    {Wrote : World → List Byte → Prop} (h : Stream.Fills Has Wrote) :
    Stream.Fills (Counting Has) Wrote where
  toAccepts := by
    refine (accepts (fun _ => h.toAccepts)
      (fun {now f s w data} hs => h.same (w.sameFiles_tallied f) hs) .zero).of_iff ?_ ?_
    · intro c w data
      constructor
      · rintro ⟨hown, -, hdata, -⟩
        exact ⟨hdata, hown⟩
      · rintro ⟨hdata, hown⟩
        exact ⟨hown, ⟨0, UInt64.ofNat data.length, 0, 0⟩, hdata, rfl, (UInt64.zero_add _).symm⟩
    · intro w data
      constructor
      · rintro ⟨-, hwrote, -⟩
        exact hwrote
      · intro hwrote
        exact ⟨⟨0, UInt64.ofNat data.length, 0, 0⟩, hwrote, rfl, (UInt64.zero_add _).symm⟩
  same := fun hsame ⟨hdata, hcount⟩ => ⟨h.same hsame hdata, hcount⟩

end Counted

end VolumeFS
