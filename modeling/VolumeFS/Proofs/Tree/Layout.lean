import Mathlib.Data.List.Infix
import Mathlib.Logic.Function.Basic

/-!
# Layouts of trees

A layout tells what is at each place. It is rooted if there is a directory at
the root and each other place that is taken has a name and lies in a directory.
Adding to a directory, taking away what has nothing below it, and moving to a
free place outside of what is moved keep a layout rooted.
-/

set_option autoImplicit false

namespace VolumeFS.Tree

/-- What lies below a place does not lead to it. -/
theorem below_not_above {x y : List String} (hy : y ≠ []) : ¬ x ++ y <+: x := by
  intro h
  have hlen := h.length_le
  rw [List.length_append] at hlen
  exact hy (List.length_eq_zero_iff.1 (by omega))

/-- What is at each place, told by the names that lead there from the root. -/
abbrev Layout (α : Type) := List String → Option α

structure Rooted {α : Type} (Directory : α → Prop) (Name : String → Prop) (l : Layout α) :
    Prop where
  root : ∃ a, l [] = some a ∧ Directory a
  name : ∀ x n a, l (x ++ [n]) = some a → Name n
  above : ∀ x n a, l (x ++ [n]) = some a → ∃ d, l x = some d ∧ Directory d

/-- All that was at or below the source is at or below the target, which was free. -/
structure Relocated {α : Type} (before after : Layout α) (source target : List String) :
    Prop where
  arrived : ∀ y, after (target ++ y) = before (source ++ y)
  left : ∀ x, source <+: x → ¬ target <+: x → after x = none
  elsewhere : ∀ x, ¬ source <+: x → ¬ target <+: x → after x = before x

namespace Relocated

variable {α : Type} {l l' : Layout α} {source target : List String}
  (hr : Relocated l l' source target)

include hr

/-- What is somewhere after a move was at or below the source, or it was there before. -/
theorem came {z : List String} {a : α} (hz : l' z = some a) :
    (∃ y, z = target ++ y ∧ l (source ++ y) = some a) ∨ (¬ source <+: z ∧ l z = some a) := by
  by_cases ht : target <+: z
  · obtain ⟨y, rfl⟩ := ht
    exact .inl ⟨y, rfl, (hr.arrived y).symm.trans hz⟩
  · by_cases hs : source <+: z
    · rw [hr.left z hs ht] at hz
      cases hz
    · exact .inr ⟨hs, (hr.elsewhere z hs ht).symm.trans hz⟩

theorem origin {z : List String} {a : α} (hz : l' z = some a) : ∃ z', l z' = some a := by
  obtain ⟨y, -, hy⟩ | ⟨-, hz⟩ := hr.came hz
  · exact ⟨_, hy⟩
  · exact ⟨z, hz⟩

/-- What was in one place only is in one place only. -/
theorem once {a : α} (ha : ∀ y z, l y = some a → l z = some a → y = z) {y z : List String}
    (hy : l' y = some a) (hz : l' z = some a) : y = z := by
  obtain ⟨u, rfl, hu⟩ | ⟨hsy, hy⟩ := hr.came hy <;>
    obtain ⟨v, rfl, hv⟩ | ⟨hsz, hz⟩ := hr.came hz
  · rw [List.append_cancel_left (ha _ _ hu hv)]
  · exact absurd ⟨u, ha _ _ hu hz⟩ hsz
  · exact absurd ⟨v, ha _ _ hv hy⟩ hsy
  · exact ha _ _ hy hz

end Relocated

section Update

variable {α : Type} {l : Layout α} {x y : List String} {a b : α}

/-- What is somewhere after something was put in a place is that, or it was there before. -/
theorem update_some_cases (h : Function.update l x (some a) y = some b) :
    (y = x ∧ b = a) ∨ l y = some b := by
  by_cases he : y = x
  · rw [he, Function.update_self] at h
    exact .inl ⟨he, (Option.some.inj h).symm⟩
  · rw [Function.update_of_ne he] at h
    exact .inr h

theorem update_some_kept (hfree : l x = none) (h : l y = some b) :
    Function.update l x (some a) y = some b := by
  have hne : y ≠ x := by
    rintro rfl
    cases hfree.symm.trans h
  rw [Function.update_of_ne hne, h]

/-- What is somewhere after a place was cleared was there before. -/
theorem update_none_before (h : Function.update l x none y = some b) : y ≠ x ∧ l y = some b := by
  by_cases he : y = x
  · rw [he, Function.update_self] at h
    cases h
  · rw [Function.update_of_ne he] at h
    exact ⟨he, h⟩

end Update

namespace Rooted

variable {α : Type} {Directory : α → Prop} {Name : String → Prop} {l : Layout α}
  (h : Rooted Directory Name l)

include h

theorem directory_above {x y : List String} {a : α} (hy : y ≠ []) (hx : l (x ++ y) = some a) :
    ∃ d, l x = some d ∧ Directory d := by
  induction y using List.reverseRecOn generalizing a with
  | nil => exact absurd rfl hy
  | append_singleton y n ih =>
    rw [← List.append_assoc] at hx
    obtain ⟨d, hd, hdir⟩ := h.above _ n a hx
    by_cases hy' : y = []
    · rw [hy', List.append_nil] at hd
      exact ⟨d, hd, hdir⟩
    · exact ih hy' hd

theorem names {x : List String} {a : α} (hx : l x = some a) : ∀ n ∈ x, Name n := by
  induction x using List.reverseRecOn generalizing a with
  | nil => simp
  | append_singleton x m ih =>
    obtain ⟨d, hd, -⟩ := h.above x m a hx
    intro n hn
    rcases List.mem_append.1 hn with hn | hn
    · exact ih hd n hn
    · rw [List.mem_singleton.1 hn]
      exact h.name x m a hx

/-- Where nothing is, or no directory, nothing is below. -/
theorem nothing_below {x y : List String} (hy : y ≠ []) (hx : ∀ d, l x = some d → ¬ Directory d) :
    l (x ++ y) = none := by
  by_contra hne
  obtain ⟨a, ha⟩ := Option.ne_none_iff_exists'.1 hne
  obtain ⟨d, hd, hdir⟩ := h.directory_above hy ha
  exact hx d hd hdir

theorem nothing_within {x z : List String} (hx : l x = none) (hz : x <+: z) : l z = none := by
  obtain ⟨y, rfl⟩ := hz
  by_cases hy : y = []
  · rwa [hy, List.append_nil]
  · exact h.nothing_below hy (by simp [hx])

theorem childless {x : List String} (hx : ∀ n, l (x ++ [n]) = none) {y : List String}
    (hy : y ≠ []) : l (x ++ y) = none := by
  cases y with
  | nil => exact absurd rfl hy
  | cons n y =>
    refine h.nothing_within (hx n) ⟨y, ?_⟩
    rw [List.append_assoc, List.singleton_append]

theorem update_new {x : List String} {n : String} {d a : α} (hn : Name n) (hd : l x = some d)
    (hdir : Directory d) (hfree : l (x ++ [n]) = none) :
    Rooted Directory Name (Function.update l (x ++ [n]) (some a)) := by
  have hnew : ∀ y m b, Function.update l (x ++ [n]) (some a) (y ++ [m]) = some b →
      (y = x ∧ m = n) ∨ l (y ++ [m]) = some b := by
    intro y m b hy
    refine (update_some_cases hy).imp_left fun ⟨he, _⟩ => ?_
    obtain ⟨hyx, hmn⟩ := List.append_inj' he rfl
    exact ⟨hyx, List.singleton_inj.1 hmn⟩
  obtain ⟨r, hr, hrdir⟩ := h.root
  refine ⟨⟨r, update_some_kept hfree hr, hrdir⟩, ?_, ?_⟩
  · intro y m b hy
    rcases hnew y m b hy with ⟨-, rfl⟩ | hy
    · exact hn
    · exact h.name y m b hy
  · intro y m b hy
    rcases hnew y m b hy with ⟨rfl, -⟩ | hy
    · exact ⟨d, update_some_kept hfree hd, hdir⟩
    · obtain ⟨d', hd', hdir'⟩ := h.above y m b hy
      exact ⟨d', update_some_kept hfree hd', hdir'⟩

theorem update_none {x : List String} (hx : x ≠ []) (hleaf : ∀ n, l (x ++ [n]) = none) :
    Rooted Directory Name (Function.update l x none) := by
  obtain ⟨r, hr, hrdir⟩ := h.root
  refine ⟨⟨r, ?_, hrdir⟩, fun y m b hy => h.name y m b (update_none_before hy).2, ?_⟩
  · rw [Function.update_of_ne (Ne.symm hx), hr]
  · intro y m b hy
    obtain ⟨-, hold⟩ := update_none_before hy
    obtain ⟨d, hd, hdir⟩ := h.above y m b hold
    refine ⟨d, ?_, hdir⟩
    rw [Function.update_of_ne ?_, hd]
    rintro rfl
    rw [hleaf m] at hold
    cases hold

theorem relocated {l' : Layout α} {source x : List String} {n : String} {d : α}
    (hr : Relocated l l' source (x ++ [n])) (hn : Name n) (hd : l x = some d) (hdir : Directory d)
    (hout : ¬ source <+: x ++ [n]) : Rooted Directory Name l' := by
  have hne : source ≠ [] := fun h0 => hout (h0 ▸ List.nil_prefix)
  have hparent : ∀ z m a, l' (z ++ [m]) = some a → Name m ∧ ∃ d', l' z = some d' ∧ Directory d' := by
    intro z m a hz
    by_cases ht : x ++ [n] <+: z ++ [m]
    · obtain ⟨y, hy⟩ := ht
      rcases List.eq_nil_or_concat y with rfl | ⟨y, m', rfl⟩
      · -- The target itself: the directory it lies in is not among what was moved.
        rw [List.append_nil] at hy
        obtain ⟨rfl, hm⟩ := List.append_inj' hy rfl
        obtain rfl : n = m := by simpa using hm
        refine ⟨hn, d, ?_, hdir⟩
        rw [hr.elsewhere _ (fun hs => hout (hs.trans (List.prefix_append _ _)))
          (below_not_above (by simp)), hd]
      · rw [List.concat_eq_append, ← List.append_assoc] at hy
        obtain ⟨rfl, hm⟩ := List.append_inj' hy rfl
        obtain rfl : m' = m := by simpa using hm
        rw [List.append_assoc, hr.arrived (y ++ [m']), ← List.append_assoc] at hz
        obtain ⟨d', hd', hdir'⟩ := h.above _ _ _ hz
        exact ⟨h.name _ _ _ hz, d', (hr.arrived y).trans hd', hdir'⟩
    · have hs : ¬ source <+: z ++ [m] := by
        intro hs
        rw [hr.left _ hs ht] at hz
        cases hz
      rw [hr.elsewhere _ hs ht] at hz
      obtain ⟨d', hd', hdir'⟩ := h.above _ _ _ hz
      refine ⟨h.name _ _ _ hz, d', ?_, hdir'⟩
      rw [hr.elsewhere z (fun hp => hs (hp.trans (List.prefix_append _ _)))
        (fun hp => ht (hp.trans (List.prefix_append _ _))), hd']
  obtain ⟨r, hroot, hrdir⟩ := h.root
  refine ⟨⟨r, ?_, hrdir⟩, fun z m a hz => (hparent z m a hz).1,
    fun z m a hz => (hparent z m a hz).2⟩
  rw [hr.elsewhere [] (by simpa using hne) (by simp), hroot]

end Rooted

end VolumeFS.Tree
