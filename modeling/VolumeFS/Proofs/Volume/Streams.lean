import VolumeFS.Proofs.Stream.Transfer
import VolumeFS.Proofs.Volume.WellFormed

/-!
# Reading and writing the files of a volume

A reader hands out the bytes that the file had when it was opened. A writer that
stands at the end of its file adds what is written to it and changes nothing
else on the volume.
-/

set_option autoImplicit false

namespace VolumeFS.Volume

theorem overwrite_end (data bytes : List Byte) :
    overwrite data data.length bytes = data ++ bytes := by
  have hpad : data.length + bytes.length - data.length = bytes.length := by omega
  rw [overwrite, hpad, List.take_left, List.drop_eq_nil_of_le (by simp), List.append_nil]

/-- The word of a length that a file can have. -/
theorem toNat_length {n : Nat} (h : n ≤ longest) : (UInt64.ofNat n).toNat = n := by
  unfold longest at h
  rw [UInt64.toNat_ofNat']
  omega

namespace Reader

def Left (r : Reader) (_ : World) (bytes : List Byte) : Prop :=
  r.cursor.position.toNat ≤ r.cursor.data.length ∧ r.cursor.data.length ≤ longest ∧
    bytes = r.cursor.data.drop r.cursor.position.toNat

theorem feeds : Stream.Feeds Left where
  same := fun _ hleft => hleft
  read := by
    rintro ⟨data, position⟩ w bytes n hn ⟨hpos, hlen, rfl⟩
    dsimp only at hpos hlen ⊢
    have hstop : (UInt64.ofNat (position.toNat + ((data.drop position.toNat).take n).length)).toNat =
        position.toNat + ((data.drop position.toNat).take n).length := by
      refine toNat_length ?_
      rw [List.length_take, List.length_drop]
      omega
    refine ⟨(data.drop position.toNat).take n, (data.drop position.toNat).drop n,
      ⟨⟨data, UInt64.ofNat (position.toNat + ((data.drop position.toNat).take n).length)⟩⟩, w, rfl,
      (List.take_append_drop _ _).symm, ?_, .refl w, ?_, hlen, ?_⟩
    · intro hnone
      rcases List.take_eq_nil_iff.1 hnone with h0 | hdrop
      · omega
      · rw [hdrop, List.drop_nil]
    · dsimp only
      rw [hstop, List.length_take, List.length_drop]
      omega
    · dsimp only
      rw [hstop, List.drop_drop, List.length_take, List.length_drop]
      by_cases hn' : n ≤ data.length - position.toNat
      · rw [Nat.min_eq_left hn']
      · rw [List.drop_eq_nil_of_le (by omega), List.drop_eq_nil_of_le (by omega)]

end Reader

namespace Writer

def Wrote (before : World) (k : Key) (mode uid gid : UInt32) (w : World) (data : List Byte) :
    Prop :=
  w.volume = before.volume.put k ⟨.file data, mode, uid, gid⟩ ∧ w.disk = before.disk

def AtEnd (before : World) (k : Key) (mode uid gid : UInt32) (s : Writer) (w : World)
    (data : List Byte) : Prop :=
  s.key = k ∧ s.position.toNat = data.length ∧ Wrote before k mode uid gid w data

theorem fills (before : World) (k : Key) (mode uid gid : UInt32) :
    Stream.Fills (AtEnd before k mode uid gid) (Wrote before k mode uid gid) where
  same := by
    rintro s w w' data hsame ⟨hk, hpos, hv, hd⟩
    exact ⟨hk, hpos, hsame.volume.trans hv, hsame.disk.trans hd⟩
  write := by
    rintro ⟨key, position⟩ w data bytes hlen ⟨hk, hpos, hv, hd⟩
    obtain rfl : key = k := hk
    dsimp only at hpos hv hd ⊢
    have hwrite : writeAt key position.toNat bytes w.volume =
        .ok (before.volume.put key ⟨.file (data ++ bytes), mode, uid, gid⟩) := by
      have hfind : w.volume.find? key = some ⟨.file data, mode, uid, gid⟩ := by
        rw [hv, find?_put_self]
      have hput : w.volume.put key ⟨.file (data ++ bytes), mode, uid, gid⟩ =
          before.volume.put key ⟨.file (data ++ bytes), mode, uid, gid⟩ := by
        rw [hv, put_put]
      unfold writeAt
      simp only [hfind, hpos]
      rw [if_neg (by omega), overwrite_end]
      exact congrArg _ hput
    refine ⟨bytes.length, ⟨key, position + UInt64.ofNat bytes.length⟩, { w with
      volume := before.volume.put key ⟨.file (data ++ bytes), mode, uid, gid⟩ }, ?_,
      Nat.le_refl _, List.length_eq_zero_iff.1, rfl, ?_, ?_, hd⟩
    · rw [acted_write]
      dsimp only
      rw [hwrite]
    · unfold longest at hlen
      rw [UInt64.toNat_add, UInt64.toNat_ofNat', hpos, List.take_length, List.length_append]
      omega
    · rw [List.take_length]
  flush := fun {s w data} _ hs => ⟨s, w, rfl, hs⟩
  shutdown := fun {s w data} _ hs => ⟨s, w, rfl, hs.2.2⟩

end Writer

end VolumeFS.Volume
