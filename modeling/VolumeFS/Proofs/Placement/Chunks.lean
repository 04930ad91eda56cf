import VolumeFS.Placement.Hint

/-!
# Ranges and chunks

The hints for a range of a striped file are non-empty ranges one after the
other that make up the whole range. Each lies within one chunk and names the
group of that chunk. Offsets and lengths are words, but no sum or product that
such a hint is made from is cut off, so all of this is said of numbers.
-/

set_option autoImplicit false

namespace VolumeFS

/-- Non-empty ranges one after the other, each given by its offset and its length, that lead from
one offset to another. -/
def Tiles : Nat → Nat → List (UInt64 × UInt64) → Prop
  | start, stop, [] => start = stop
  | start, stop, (offset, length) :: ranges =>
    offset.toNat = start ∧ 0 < length.toNat ∧ Tiles (start + length.toNat) stop ranges

namespace Tiles

variable {start stop : Nat} {ranges : List (UInt64 × UInt64)}

theorem le (h : Tiles start stop ranges) : start ≤ stop := by
  induction ranges generalizing start with
  | nil => exact Nat.le_of_eq h
  | cons range ranges ih =>
    have := ih h.2.2
    omega

theorem within (h : Tiles start stop ranges) : ∀ range ∈ ranges,
    start ≤ range.1.toNat ∧ 0 < range.2.toNat ∧ range.1.toNat + range.2.toNat ≤ stop := by
  induction ranges generalizing start with
  | nil => simp
  | cons range ranges ih =>
    obtain ⟨hoffset, hpos, hrest⟩ := h
    have hstop := hrest.le
    intro r hr
    rcases List.mem_cons.1 hr with rfl | hr
    · exact ⟨Nat.le_of_eq hoffset.symm, hpos, by omega⟩
    · obtain ⟨hstart, hbetween⟩ := ih hrest r hr
      exact ⟨by omega, hbetween⟩

theorem sorted (h : Tiles start stop ranges) : ranges.Pairwise fun r s => r.1 < s.1 := by
  induction ranges generalizing start with
  | nil => exact List.Pairwise.nil
  | cons range ranges ih =>
    obtain ⟨hoffset, hpos, hrest⟩ := h
    refine List.Pairwise.cons (fun s hs => ?_) (ih hrest)
    have := (hrest.within s hs).1
    rw [UInt64.lt_iff_toNat_lt]
    omega

/-- No byte between the two offsets is left out. -/
theorem covers (h : Tiles start stop ranges) {x : Nat} (hstart : start ≤ x) (hstop : x < stop) :
    ∃ range ∈ ranges, range.1.toNat ≤ x ∧ x < range.1.toNat + range.2.toNat := by
  induction ranges generalizing start with
  | nil =>
    have : start = stop := h
    omega
  | cons range ranges ih =>
    obtain ⟨hoffset, -, hrest⟩ := h
    by_cases hx : x < start + range.2.toNat
    · exact ⟨range, List.mem_cons_self, by omega, by omega⟩
    · obtain ⟨r, hr, hwithin⟩ := ih hrest (by omega)
      exact ⟨r, List.mem_cons_of_mem _ hr, hwithin⟩

end Tiles

namespace Hint

def range (h : Hint) : UInt64 × UInt64 := (h.offset, h.length)

/-- The range lies within one chunk, and the bricks are those of the chunk's group. -/
structure OfChunk (p : Placement) (size : UInt64) (h : Hint) : Prop where
  within : h.offset.toNat + h.length.toNat ≤ (h.offset.toNat / size.toNat + 1) * size.toNat
  replicas : h.replicas = p.group (h.offset.toNat / size.toNat)

end Hint

namespace Placement

variable {p : Placement} {size start stop : UInt64} (hsize : size ≠ 0)

section Chunk

variable {chunk : UInt64} (hlow : chunk.toNat * size.toNat < stop.toNat)

include hlow

theorem toNat_chunkFirst (start : UInt64) :
    (chunkFirst size start chunk).toNat = max (chunk.toNat * size.toNat) start.toNat := by
  have := Offset.toNat_le_largest stop
  rw [chunkFirst, Offset.toNat_max, Offset.toNat_mulSat, Nat.min_eq_left (by omega)]

include hsize

theorem toNat_chunkLast :
    (chunkLast size stop chunk).toNat = min ((chunk.toNat + 1) * size.toNat) stop.toNat := by
  have hstop := Offset.toNat_le_largest stop
  have hpos := Offset.toNat_pos hsize
  have hchunk := Nat.le_mul_of_pos_right chunk.toNat hpos
  have hone : (1 : UInt64).toNat = 1 := rfl
  rw [chunkLast, Offset.toNat_min, Offset.toNat_mulSat, Offset.toNat_addSat, hone,
    Nat.min_eq_left (by omega : chunk.toNat + 1 ≤ Offset.largest)]
  omega

/-- The hint for a chunk that the range meets. -/
theorem chunkHint_ofChunk (hhigh : start.toNat < (chunk.toNat + 1) * size.toNat)
    (hrange : start.toNat < stop.toNat) :
    (p.chunkHint size start stop chunk).OfChunk p size ∧
      0 < (p.chunkHint size start stop chunk).length.toNat ∧
      max (chunk.toNat * size.toNat) start.toNat +
          (p.chunkHint size start stop chunk).length.toNat =
        min ((chunk.toNat + 1) * size.toNat) stop.toNat := by
  have hpos := Offset.toNat_pos hsize
  have hnext : (chunk.toNat + 1) * size.toNat = chunk.toNat * size.toNat + size.toNat :=
    Nat.succ_mul _ _
  have hoffset : (p.chunkHint size start stop chunk).offset.toNat =
      max (chunk.toNat * size.toNat) start.toNat := toNat_chunkFirst hlow start
  have hlength : (p.chunkHint size start stop chunk).length.toNat =
      min ((chunk.toNat + 1) * size.toNat) stop.toNat -
        max (chunk.toNat * size.toNat) start.toNat := by
    rw [← toNat_chunkLast hsize hlow, ← toNat_chunkFirst hlow start]
    exact Offset.toNat_subSat _ _
  have hchunk : (p.chunkHint size start stop chunk).offset.toNat / size.toNat = chunk.toNat :=
    Nat.div_eq_of_lt_le (by omega) (by omega)
  refine ⟨⟨?_, ?_⟩, by omega, by omega⟩
  · rw [hchunk]
    omega
  · rw [hchunk]
    rfl

end Chunk

/-- From a chunk on that the range meets, the hints make up what is left of the range. -/
theorem chunkHints_tiles (chunk : UInt64) (hlow : chunk.toNat * size.toNat < stop.toNat)
    (hhigh : start.toNat < (chunk.toNat + 1) * size.toNat) (hrange : start.toNat < stop.toNat) :
    Tiles (max (chunk.toNat * size.toNat) start.toNat) stop.toNat
        ((p.chunkHints size hsize start stop chunk).map Hint.range) ∧
      ∀ h ∈ p.chunkHints size hsize start stop chunk, h.OfChunk p size := by
  -- Along the loop, each chunk that is come to still meets the range.
  fun_induction Placement.chunkHints p size hsize start stop chunk with
  | case1 chunk hmore next ih =>
    obtain ⟨hof, hpos, hlength⟩ := chunkHint_ofChunk (p := p) hsize hlow hhigh hrange
    have hoffset := toNat_chunkFirst hlow start
    rw [UInt64.lt_iff_toNat_lt, toNat_chunkLast hsize hlow] at hmore
    have hnext : next.toNat = chunk.toNat + 1 := UInt64.toNat_ofNatLT
    have hsucc : (chunk.toNat + 1 + 1) * size.toNat = (chunk.toNat + 1) * size.toNat + size.toNat :=
      Nat.succ_mul _ _
    obtain ⟨htiles, hall⟩ := ih (by rw [hnext]; omega) (by rw [hnext]; omega)
    refine ⟨⟨hoffset, hpos, ?_⟩, List.forall_mem_cons.2 ⟨hof, hall⟩⟩
    have hstart : max (next.toNat * size.toNat) start.toNat =
        max (chunk.toNat * size.toNat) start.toNat +
          (p.chunkHint size start stop chunk).length.toNat := by
      rw [hnext]
      omega
    rwa [hstart] at htiles
  | case2 chunk hend =>
    obtain ⟨hof, hpos, hlength⟩ := chunkHint_ofChunk (p := p) hsize hlow hhigh hrange
    have hoffset := toNat_chunkFirst hlow start
    rw [UInt64.lt_iff_toNat_lt, toNat_chunkLast hsize hlow] at hend
    refine ⟨⟨hoffset, hpos, ?_⟩, List.forall_mem_singleton.2 hof⟩
    change _ + (p.chunkHint size start stop chunk).length.toNat = _
    omega

/-- A file without a stripe size, or with the stripe size 0, is not cut into chunks. -/
theorem chunkSize?_eq_none :
    p.chunkSize? = none ↔ p.stripeSize = none ∨ p.stripeSize = some 0 := by
  unfold chunkSize?
  cases p.stripeSize with
  | none => simp
  | some size => by_cases h0 : size = 0 <;> simp [h0]

include hsize in
theorem chunkSize?_eq_some : p.chunkSize? = some ⟨size, hsize⟩ ↔ p.stripeSize = some size := by
  unfold chunkSize?
  cases p.stripeSize with
  | none => simp
  | some other =>
    rw [Option.bind_some, Option.some.injEq]
    by_cases h0 : other = 0
    · simp [h0, hsize.symm]
    · simp [h0]

/-- Without chunks one hint names the bricks of all groups for the whole range. -/
theorem hints_whole (h : p.chunkSize? = none) (start length : UInt64) :
    p.hints start length = [⟨start, length, p.groups.flatten⟩] := by
  rw [hints, h]

/-- With chunks the hints make up the range, if that ends with a word. -/
theorem hints_tiles (h : p.chunkSize? = some ⟨size, hsize⟩) (start length : UInt64)
    (hpos : 0 < length.toNat) (hword : start.toNat + length.toNat ≤ Offset.largest) :
    Tiles start.toNat (start.toNat + length.toNat) ((p.hints start length).map Hint.range) ∧
      ∀ hint ∈ p.hints start length, hint.OfChunk p size := by
  have hstop : (Offset.addSat start length).toNat = start.toNat + length.toNat := by
    rw [Offset.toNat_addSat, Nat.min_eq_left hword]
  have hsizepos := Offset.toNat_pos hsize
  have hchunk : (start / size).toNat = start.toNat / size.toNat := UInt64.toNat_div _ _
  have hlow : (start / size).toNat * size.toNat ≤ start.toNat := by
    rw [hchunk]
    exact Nat.div_mul_le_self _ _
  have hhigh : start.toNat < ((start / size).toNat + 1) * size.toNat := by
    rw [hchunk]
    exact (Nat.div_lt_iff_lt_mul hsizepos).1 (Nat.lt_succ_self _)
  rw [hints, h]
  have hmain := chunkHints_tiles (p := p) hsize (start / size)
    (show _ < (Offset.addSat start length).toNat by omega) hhigh (by omega)
  rw [Nat.max_eq_right hlow, hstop] at hmain
  exact hmain

/-- The groups that the hints name are those of the chunks that the range meets. -/
theorem hints_groups (h : p.chunkSize? = some ⟨size, hsize⟩) (start length : UInt64)
    (hpos : 0 < length.toNat) (hword : start.toNat + length.toNat ≤ Offset.largest)
    {P : List Brick → Prop} :
    (∀ hint ∈ p.hints start length, P hint.replicas) ↔
      ∀ chunk : Nat, chunk * size.toNat < start.toNat + length.toNat →
        start.toNat < (chunk + 1) * size.toNat → P (p.group chunk) := by
  obtain ⟨htiles, hchunks⟩ := hints_tiles hsize h start length hpos hword
  have hsizepos := Offset.toNat_pos hsize
  constructor
  · intro hall chunk hlow hhigh
    have hnext : (chunk + 1) * size.toNat = chunk * size.toNat + size.toNat := Nat.succ_mul _ _
    -- The first byte of the chunk that is in the range lies in some hint, which is this chunk's.
    obtain ⟨range, hrange, hbegin, hend⟩ :=
      htiles.covers (x := max (chunk * size.toNat) start.toNat) (by omega) (by omega)
    obtain ⟨hint, hmem, rfl⟩ := List.mem_map.1 hrange
    obtain ⟨hwithin, hreplicas⟩ := hchunks hint hmem
    change hint.offset.toNat ≤ _ at hbegin
    change _ < hint.offset.toNat + hint.length.toNat at hend
    have hle : hint.offset.toNat / size.toNat < chunk + 1 :=
      (Nat.div_lt_iff_lt_mul hsizepos).2 (by omega)
    have hge : chunk < hint.offset.toNat / size.toNat + 1 :=
      Nat.lt_of_mul_lt_mul_right (a := size.toNat) (by omega)
    have heq : hint.offset.toNat / size.toNat = chunk := by omega
    rw [← heq, ← hreplicas]
    exact hall hint hmem
  · intro hall hint hmem
    obtain ⟨hstart, hlength, hstop⟩ := htiles.within _ (List.mem_map_of_mem hmem)
    change start.toNat ≤ hint.offset.toNat at hstart
    change 0 < hint.length.toNat at hlength
    change hint.offset.toNat + hint.length.toNat ≤ _ at hstop
    have hlow := Nat.div_mul_le_self hint.offset.toNat size.toNat
    have hwithin := (hchunks hint hmem).within
    rw [(hchunks hint hmem).replicas]
    exact hall _ (by omega) (by omega)

end Placement

end VolumeFS
