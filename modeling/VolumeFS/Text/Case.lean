/-!
# Letter case

Only the letters `A` to `Z` have a lower case here; every other character is
its own lower case.
-/

set_option autoImplicit false

namespace VolumeFS.Text

/-- Every letter from `A` to `Z` replaced by its small form. -/
def lower (s : String) : String :=
  String.ofList (s.toList.map Char.toLower)

/-- Equal up to the case of the letters from `A` to `Z`. -/
def sameLetters (a b : String) : Bool :=
  lower a == lower b

end VolumeFS.Text
