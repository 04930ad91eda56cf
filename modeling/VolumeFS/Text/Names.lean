/-!
# Names in order

Lists of names in the order of their characters, which is also the order of
their bytes.
-/

set_option autoImplicit false

namespace VolumeFS.Text

def sortedNames (names : List String) : List String :=
  names.mergeSort fun a b => decide (a ≤ b)

def distinctNames (names : List String) : List String :=
  (sortedNames names).eraseReps

end VolumeFS.Text
