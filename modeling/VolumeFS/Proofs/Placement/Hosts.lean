import Mathlib.Data.List.Basic
import Mathlib.Data.List.Induction
import Mathlib.Data.List.TakeWhile
import VolumeFS.Placement.Brick

/-!
# Names of hosts

Of the hosts of some bricks each is listed once, where it is named first, and
the first of them that passes for this host comes before the others. A name
passes for the name of this host if the two are equal but for case, or if one
of them has no dot and is the first label of the other; but so do two names
with dots that merely begin with the same label.
-/

set_option autoImplicit false

namespace VolumeFS

theorem Text.sameLetters_iff {a b : String} :
    sameLetters a b = true ↔ lower a = lower b := by
  simp [sameLetters]

namespace Host

section Distinct

def firsts (names : List String) : List String :=
  (List.range names.length).filterMap fun i =>
    names[i]?.filter fun name => !(names.take i).any (Text.sameLetters · name)

theorem firsts_concat (names : List String) (name : String) :
    firsts (names ++ [name]) =
      firsts names ++ if names.any (Text.sameLetters · name) then [] else [name] := by
  unfold firsts
  rw [List.length_append, List.length_singleton, List.range_succ, List.filterMap_append]
  congr 1
  · refine List.filterMap_congr fun i hi => ?_
    have hi := List.mem_range.1 hi
    rw [List.getElem?_append_left hi, List.take_append_of_le_length (Nat.le_of_lt hi)]
  · rw [List.filterMap_cons, List.getElem?_concat_length, List.take_left, Option.filter_some]
    cases names.any (Text.sameLetters · name) <;> rfl

theorem distinct_concat (names : List String) (name : String) :
    distinct (names ++ [name]) =
      if (distinct names).any (Text.sameLetters · name) then distinct names
      else distinct names ++ [name] := by
  unfold distinct
  rw [List.foldl_append]
  rfl

/-- A name is known once an equal one is listed. -/
theorem any_distinct (names : List String) (name : String) :
    (distinct names).any (Text.sameLetters · name) = names.any (Text.sameLetters · name) := by
  induction names using List.reverseRecOn with
  | nil => rfl
  | append_singleton names last ih =>
    rw [distinct_concat, List.any_append]
    -- Where the last name is left out, an equal one stands for it.
    split_ifs with hlast
    · rw [ih, List.any_cons, List.any_nil, Bool.or_false]
      obtain ⟨listed, hlisted, hsame⟩ := List.any_eq_true.1 hlast
      rw [Text.sameLetters_iff] at hsame
      cases heq : Text.sameLetters last name with
      | false => rw [Bool.or_false]
      | true =>
        rw [← ih, Bool.or_true]
        refine List.any_eq_true.2 ⟨listed, hlisted, ?_⟩
        rw [Text.sameLetters_iff] at heq ⊢
        exact hsame.trans heq
    · rw [List.any_append, ih]

theorem distinct_eq_firsts (names : List String) : distinct names = firsts names := by
  induction names using List.reverseRecOn with
  | nil => rfl
  | append_singleton names name ih =>
    rw [distinct_concat, firsts_concat, any_distinct, ih]
    split_ifs with h
    · rw [List.append_nil]
    · rfl

end Distinct

/-- The hosts of some names with the first one that passes for this host, if any does, before the
others. -/
def Preferred (here : String) (names hosts : List String) : Prop :=
  (hosts = firsts names ∧ ∀ host ∈ firsts names, isSame host here = false) ∨
    ∃ before host after, firsts names = before ++ host :: after ∧ isSame host here = true ∧
      (∀ other ∈ before, isSame other here = false) ∧ hosts = host :: (before ++ after)

theorem localFirst_preferred (here : String) (names : List String) :
    Preferred here names (localFirst here (distinct names)) := by
  unfold localFirst Preferred
  rw [distinct_eq_firsts]
  cases h : (firsts names).findIdx? (isSame · here) with
  | none => exact .inl ⟨rfl, List.findIdx?_eq_none_iff.1 h⟩
  | some i =>
    obtain ⟨hi, hsame, hbefore⟩ := List.findIdx?_eq_some_iff_getElem.1 h
    refine .inr ⟨(firsts names).take i, (firsts names)[i], (firsts names).drop (i + 1), ?_, hsame,
      fun other hother => ?_, ?_⟩
    · rw [← List.drop_eq_getElem_cons hi, List.take_append_drop]
    · obtain ⟨j, hj, rfl⟩ := List.mem_take_iff_getElem.1 hother
      exact Bool.eq_false_iff.2 (hbefore j (by omega))
    · dsimp only
      rw [List.eraseIdx_eq_take_drop_succ, List.getElem?_eq_getElem hi]
      rfl

section Same

def firstLabel (host : String) : String :=
  String.ofList (host.toList.takeWhile (· ≠ '.'))

/-- Equal but for case, or one of the two names has no dot and is the first label of the other. -/
def Related (a b : String) : Prop :=
  Text.sameLetters a b = true ∨
    '.' ∉ a.toList ∧ Text.sameLetters a (firstLabel b) = true ∨
    '.' ∉ b.toList ∧ Text.sameLetters b (firstLabel a) = true

def Namesakes (a b : String) : Prop :=
  '.' ∈ a.toList ∧ '.' ∈ b.toList ∧ Text.sameLetters (firstLabel a) (firstLabel b) = true ∧
    Text.sameLetters a b = false

instance (a b : String) : Decidable (Related a b) :=
  inferInstanceAs (Decidable (_ ∨ _ ∨ _))

instance (a b : String) : Decidable (Namesakes a b) :=
  inferInstanceAs (Decidable (_ ∧ _ ∧ _ ∧ _))

theorem short_firstLabel (host : String) : short host = Text.lower (firstLabel host) := rfl

theorem firstLabel_dotless {host : String} (h : '.' ∉ host.toList) : firstLabel host = host := by
  have hall : host.toList.takeWhile (· ≠ '.') = host.toList := by
    refine List.takeWhile_eq_self_iff.2 fun c hc => decide_eq_true ?_
    rintro rfl
    exact h hc
  rw [firstLabel, hall, String.ofList_toList]

/-- What passes for the name of a host is related to it, or is a namesake. -/
theorem isSame_iff {a b : String} : isSame a b = true ↔ Related a b ∨ Namesakes a b := by
  have hshort : (short a == short b) = true ↔
      Text.sameLetters (firstLabel a) (firstLabel b) = true := by
    rw [beq_iff_eq, short_firstLabel, short_firstLabel, Text.sameLetters_iff]
  rw [isSame, Bool.or_eq_true, hshort, Related, Namesakes]
  constructor
  · rintro (hsame | hlabel)
    · exact .inl (.inl hsame)
    · by_cases ha : '.' ∈ a.toList
      · by_cases hb : '.' ∈ b.toList
        · cases hsame : Text.sameLetters a b with
          | true => exact .inl (.inl rfl)
          | false => exact .inr ⟨ha, hb, hlabel, rfl⟩
        · rw [firstLabel_dotless hb, Text.sameLetters_iff] at hlabel
          exact .inl (.inr (.inr ⟨hb, Text.sameLetters_iff.2 hlabel.symm⟩))
      · rw [firstLabel_dotless ha] at hlabel
        exact .inl (.inr (.inl ⟨ha, hlabel⟩))
  · rintro ((hsame | ⟨ha, hlabel⟩ | ⟨hb, hlabel⟩) | ⟨-, -, hlabel, -⟩)
    · exact .inl hsame
    · exact .inr (by rwa [firstLabel_dotless ha])
    · rw [Text.sameLetters_iff] at hlabel
      exact .inr (by rw [firstLabel_dotless hb, Text.sameLetters_iff, hlabel])
    · exact .inr hlabel

end Same

end Host

end VolumeFS
