import VolumeFS.Proofs.Disk.Change
import VolumeFS.Proofs.Volume.Streams

/-!
# Reading and writing the files of a disk

Open files are known by their number. A reader hands out the bytes of its file,
at most so many at a time, and a writer that stands at the end of its file adds
what it takes and changes no other file.
-/

set_option autoImplicit false

namespace VolumeFS.Disk

open Volume (longest toNat_length)

theorem overwrite_end (data bytes : List Byte) :
    overwrite data data.length bytes = data ++ bytes := by
  rw [overwrite, Nat.sub_self, List.replicate_zero, List.append_nil, List.take_length,
    List.drop_eq_nil_of_le (by omega), List.append_nil]

def refilled (number : Nat) (data : List Byte) (d : Disk) : Disk :=
  { d with bodies := d.bodies.modify number fun b => { b with data } }

theorem body_refilled_self {d : Disk} {number : Nat} (h : number < d.bodies.length)
    (data : List Byte) : ((d.refilled number data).body number).data = data := by
  simp [refilled, body, List.getD_eq_getElem?_getD, h]

theorem body_refilled_of_ne {number other : Nat} (h : other ≠ number) (data : List Byte)
    (d : Disk) : (d.refilled number data).body other = d.body other := by
  simp [refilled, body, List.getD_eq_getElem?_getD, List.getElem?_modify_ne _ _ (Ne.symm h)]

theorem body_modify_self {d : Disk} {number : Nat} (h : number < d.bodies.length)
    (change : Body → Body) :
    ({ d with bodies := d.bodies.modify number change }).body number = change (d.body number) := by
  simp [body, List.getD_eq_getElem?_getD, h]

theorem refilled_overwrite (number : Nat) (data bytes : List Byte) (d : Disk) :
    { d.refilled number data with
      bodies := (d.refilled number data).bodies.modify number fun b =>
        { b with data := overwrite b.data data.length bytes } } =
      d.refilled number (data ++ bytes) := by
  simp only [refilled, Disk.mk.injEq, true_and, and_true]
  refine List.ext_getElem? (fun i => ?_)
  by_cases hi : number = i
  · subst hi
    simp only [List.getElem?_modify_eq, Option.map_eq_map, Option.map_map]
    refine congrArg (Option.map · _) (funext fun b => ?_)
    simp only [Function.comp_apply, overwrite_end]
  · simp only [List.getElem?_modify_ne _ _ hi]

namespace Reader

def Left (r : Reader) (w : World) (bytes : List Byte) : Prop :=
  ∃ number, r.handle.number? = some number ∧
    r.handle.position.toNat ≤ (w.disk.body number).data.length ∧
    (w.disk.body number).data.length ≤ longest ∧
    bytes = (w.disk.body number).data.drop r.handle.position.toNat

theorem feeds : Stream.Feeds Left where
  same := by
    rintro r w w' bytes hsame ⟨number, hr, hleft⟩
    refine ⟨number, hr, ?_⟩
    rwa [hsame.disk]
  read := by
    rintro ⟨⟨number?, position⟩⟩ w bytes n hn ⟨number, hr, hpos, hlen, rfl⟩
    obtain rfl : number? = some number := hr
    dsimp only at hpos hlen ⊢
    generalize hdata : (w.disk.body number).data = data at hpos hlen ⊢
    have hsome : 0 < min n transferLimit := Nat.lt_min.2 ⟨hn, by decide⟩
    generalize hcount : min n transferLimit = count at hsome
    have hstop : (UInt64.ofNat (position.toNat +
        ((data.drop position.toNat).take count).length)).toNat =
          position.toNat + ((data.drop position.toNat).take count).length := by
      refine toNat_length ?_
      rw [List.length_take, List.length_drop]
      omega
    refine ⟨(data.drop position.toNat).take count, (data.drop position.toNat).drop count,
      ⟨⟨some number, UInt64.ofNat (position.toNat +
        ((data.drop position.toNat).take count).length)⟩⟩, w, ?_,
      (List.take_append_drop _ _).symm, ?_, .refl w, number, rfl, ?_, ?_, ?_⟩
    · subst hdata hcount
      rfl
    · intro hnone
      rcases List.take_eq_nil_iff.1 hnone with h0 | hdrop
      · omega
      · rw [hdrop, List.drop_nil]
    · rw [hdata, hstop, List.length_take, List.length_drop]
      omega
    · rwa [hdata]
    · dsimp only
      rw [hdata, hstop, List.drop_drop, List.length_take, List.length_drop]
      by_cases hn' : count ≤ data.length - position.toNat
      · rw [Nat.min_eq_left hn']
      · rw [List.drop_eq_nil_of_le (by omega), List.drop_eq_nil_of_le (by omega)]

end Reader

namespace Writer

def Wrote (before : World) (number : Nat) (w : World) (data : List Byte) : Prop :=
  w.disk = before.disk.refilled number data ∧ w.volume = before.volume

def AtEnd (before : World) (number : Nat) (s : Writer) (w : World) (data : List Byte) : Prop :=
  s.handle.number? = some number ∧ s.handle.position.toNat = data.length ∧
    Wrote before number w data

theorem acted_write (number : Nat) (position : UInt64) (bytes : List Byte) (w : World) :
    acted (Writable.write bytes) (⟨⟨some number, position⟩⟩ : Writer) w =
      ((.ok (bytes.take transferLimit).length, ⟨⟨some number,
          UInt64.ofNat (position.toNat + (bytes.take transferLimit).length)⟩⟩),
        { w with disk := { w.disk with bodies := w.disk.bodies.modify number fun b =>
          { b with data := overwrite b.data position.toNat (bytes.take transferLimit) } } }) :=
  rfl

theorem fills (before : World) (number : Nat) :
    Stream.Fills (AtEnd before number) (Wrote before number) where
  same := by
    rintro s w w' data hsame ⟨hs, hpos, hd, hv⟩
    exact ⟨hs, hpos, hsame.disk.trans hd, hsame.volume.trans hv⟩
  write := by
    rintro ⟨⟨number?, position⟩⟩ w data bytes hlen ⟨hs, hpos, hd, hv⟩
    obtain rfl : number? = some number := hs
    dsimp only at hpos
    have htaken : (bytes.take transferLimit).length = min transferLimit bytes.length :=
      List.length_take
    have hpiece : bytes.take (bytes.take transferLimit).length = bytes.take transferLimit := by
      rw [htaken, ← List.take_take, List.take_length]
    refine ⟨(bytes.take transferLimit).length, _, _, acted_write number position bytes w, by omega,
      ?_, rfl, ?_, ?_, hv⟩
    · intro hnone
      have hlimit : 0 < transferLimit := by decide
      exact List.length_eq_zero_iff.1 (by omega)
    · dsimp only
      rw [hpiece, toNat_length (by omega), List.length_append, hpos]
    · dsimp only
      rw [hd, hpos, hpiece]
      exact refilled_overwrite number data _ before.disk
  flush := fun {s w data} _ hs => ⟨s, w, rfl, hs⟩
  shutdown := fun {s w data} _ hs => ⟨s, w, rfl, hs.2.2⟩

end Writer

end VolumeFS.Disk
