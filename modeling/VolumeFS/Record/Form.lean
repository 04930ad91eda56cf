import VolumeFS.Record.Value

/-!
# Writing values as records

`ToRecord` gives the record a value is written as. What is missing is written
as null, a pair as a list of two, and a word by the number it stands for.
-/

set_option autoImplicit false

namespace VolumeFS

open Record

class ToRecord (α : Type) where
  toRecord : α → Value

namespace Record

instance : ToRecord Value := ⟨id⟩
instance : ToRecord Unit := ⟨fun _ => .null⟩
instance : ToRecord Bool := ⟨.bool⟩
instance : ToRecord Nat := ⟨fun n => .int n⟩
instance : ToRecord Int := ⟨.int⟩
instance : ToRecord UInt16 := ⟨fun n => .int n.toNat⟩
instance : ToRecord UInt32 := ⟨fun n => .int n.toNat⟩
instance : ToRecord UInt64 := ⟨fun n => .int n.toNat⟩
instance : ToRecord String := ⟨.text⟩

variable {α β : Type} [ToRecord α] [ToRecord β]

instance : ToRecord (Option α) where
  toRecord
    | none => .null
    | some a => ToRecord.toRecord a

instance : ToRecord (List α) := ⟨fun items => .list (items.map ToRecord.toRecord)⟩

instance : ToRecord (α × β) := ⟨fun (a, b) => .list [ToRecord.toRecord a, ToRecord.toRecord b]⟩

def entry (name : String) (a : α) : String × Value :=
  (name, ToRecord.toRecord a)

end Record

end VolumeFS
