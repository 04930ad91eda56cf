/-!
# Cutting text at separators

Text is handled as its list of characters. `fields` cuts at every separator
and `joinFields` is its inverse; `cutAt?` cuts once, at the first occurrence
of a separator that may be several characters long.
-/

set_option autoImplicit false

namespace VolumeFS.Text

/-- The pieces between separators: always one more than there are separators. -/
def fields (sep : Char) : List Char → List (List Char)
  | [] => [[]]
  | c :: cs =>
    if c = sep then [] :: fields sep cs
    else match fields sep cs with
      | [] => [[c]]
      | f :: fs => (c :: f) :: fs

def joinFields (sep : Char) : List (List Char) → List Char
  | [] => []
  | [f] => f
  | f :: g :: fs => f ++ sep :: joinFields sep (g :: fs)

def cutAt? (sep : List Char) : List Char → Option (List Char × List Char)
  | [] => if sep.isEmpty then some ([], []) else none
  | c :: cs =>
    if sep.isPrefixOf (c :: cs) then some ([], (c :: cs).drop sep.length)
    else (cutAt? sep cs).map fun (before, after) => (c :: before, after)

/-- The first line, without the line feed that ends it or a carriage return before that. -/
def firstLine (cs : List Char) : List Char :=
  match cs.span (· ≠ '\n') with
  | (line, []) => line
  | (line, _) => if line.getLast? = some '\r' then line.dropLast else line

theorem fields_ne_nil (sep : Char) (cs : List Char) : fields sep cs ≠ [] := by
  cases cs with
  | nil => simp [fields]
  | cons c cs =>
    unfold fields
    split
    · simp
    · split <;> simp

/-- Nothing is lost by cutting. -/
theorem joinFields_fields (sep : Char) (cs : List Char) :
    joinFields sep (fields sep cs) = cs := by
  induction cs with
  | nil => rfl
  | cons c cs ih =>
    obtain ⟨f, fs, h⟩ := List.exists_cons_of_ne_nil (fields_ne_nil sep cs)
    rw [h] at ih
    by_cases hc : c = sep
    · simp [fields, hc, h, joinFields, ih]
    · cases fs with
      | nil => simpa [fields, hc, h, joinFields] using ih
      | cons g gs => simpa [fields, hc, h, joinFields] using ih

/-- No piece holds a separator. -/
theorem not_mem_of_mem_fields (sep : Char) (cs f : List Char) (h : f ∈ fields sep cs) :
    sep ∉ f := by
  induction cs generalizing f with
  | nil => simp_all [fields]
  | cons c cs ih =>
    unfold fields at h
    split at h
    · rcases List.mem_cons.1 h with rfl | h
      · simp
      · exact ih f h
    · rename_i hc
      split at h
      · simp_all
        exact fun h => hc h.symm
      · rename_i g gs hg
        rcases List.mem_cons.1 h with rfl | h
        · have := ih g (by simp [hg])
          simp only [List.mem_cons, not_or]
          exact ⟨fun h => hc h.symm, this⟩
        · exact ih f (by simp [hg, h])

end VolumeFS.Text
