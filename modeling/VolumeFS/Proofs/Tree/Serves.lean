import Mathlib.Logic.Function.Basic
import VolumeFS.Proofs.Names
import VolumeFS.Proofs.Run
import VolumeFS.Proofs.Tree.Layout
import VolumeFS.Proofs.Tree.Survey

/-!
# What tree operations do

A tree of single-entry steps serves a layout if each step looks at or changes
the layout as it says, and never fails where the layout allows it. From this
alone follow the outcomes of the operations on many entries: directories are
made with all their parents or not at all, a delete removes exactly what lies
at or below its path, and a rename target is free.
-/

set_option autoImplicit false

namespace VolumeFS.Tree

variable {α : Type}

def Clear (kindOf : α → EntryKind) (l : Layout α) (x : List String) : Prop :=
  ∀ y z a, x = y ++ z → z ≠ [] → l y = some a → kindOf a = .directory

theorem Clear.child {kindOf : α → EntryKind} {l : Layout α} {x : List String}
    (h : Clear kindOf l x) {d : α} (hx : l x = some d) (hd : kindOf d = .directory) (n : String) :
    Clear kindOf l (x ++ [n]) := by
  intro y z b hyz hz hb
  rcases List.eq_nil_or_concat z with rfl | ⟨z, m, rfl⟩
  · exact absurd rfl hz
  rw [List.concat_eq_append, ← List.append_assoc] at hyz
  obtain ⟨rfl, -⟩ := List.append_inj' hyz rfl
  by_cases hz' : z = []
  · subst hz'
    rw [List.append_nil, hb] at hx
    cases hx
    exact hd
  · exact h y z b rfl hz' hb

def isDirectory (kindOf : α → EntryKind) (l : Layout α) (x : List String) : Bool :=
  (l x).any fun a => decide (kindOf a = .directory)

theorem isDirectory_iff {kindOf : α → EntryKind} {l : Layout α} {x : List String} :
    isDirectory kindOf l x = true ↔ ∃ d, l x = some d ∧ kindOf d = .directory := by
  unfold isDirectory
  cases l x <;> simp

/-- The steps of the tree act on the layout of the world. `Sound` holds in all worlds that are met,
and `Fits` tells the places whose paths can be used. -/
structure Serves (t : Tree Run) (kindOf : α → EntryKind) (layout : World → Layout α)
    (Sound : World → Prop) (Fits : List String → Prop) : Prop where
  root : ∀ w, Sound w → ∃ a, layout w [] = some a ∧ kindOf a = .directory
  above : ∀ w x n a, Sound w → layout w (x ++ [n]) = some a →
    ∃ d, layout w x = some d ∧ kindOf d = .directory
  fits : ∀ w x a, Sound w → layout w x = some a → Fits x
  fits_above : ∀ x n, Fits (x ++ [n]) → Fits x ∧ IsName n
  kind : ∀ w x, Sound w → Fits x → Clear kindOf (layout w) x →
    outcome (t.kind (.ofNames x)) w = (.ok ((layout w x).map kindOf), w)
  make : ∀ w x n d, Sound w → Fits (x ++ [n]) → layout w x = some d → kindOf d = .directory →
    layout w (x ++ [n]) = none →
    ∃ w' a, outcome (t.makeDirectory (.ofNames (x ++ [n]))) w = (.ok (), w') ∧ Sound w' ∧
      kindOf a = .directory ∧ layout w' = Function.update (layout w) (x ++ [n]) (some a)
  childNames : ∀ w x d, Sound w → layout w x = some d → kindOf d = .directory →
    ∃ names, outcome (t.childNames (.ofNames x)) w = (.ok names, w) ∧ names.Nodup ∧
      ∀ n, n ∈ names ↔ ∃ a, layout w (x ++ [n]) = some a
  removeEntry : ∀ w x a, Sound w → x ≠ [] → layout w x = some a →
    (∀ n, layout w (x ++ [n]) = none) →
    ∃ w', outcome (t.removeEntry (.ofNames x) (kindOf a)) w = (.ok (), w') ∧ Sound w' ∧
      layout w' = Function.update (layout w) x none
  reach : ∀ w, Sound w → ∃ n, t.reach w = (n, w) ∧ ∀ l : List (List String), l.Nodup →
    (∀ x ∈ l, ∃ d, layout w x = some d ∧ kindOf d = .directory) → l.length ≤ n

namespace Serves

variable {t : Tree Run} {kindOf : α → EntryKind} {layout : World → Layout α}
  {Sound : World → Prop} {Fits : List String → Prop}
  (h : Serves t kindOf layout Sound Fits) {w : World} (hw : Sound w)

include h

theorem fits_upper {x y : List String} (hf : Fits (x ++ y)) : Fits x := by
  induction y using List.reverseRecOn with
  | nil => simpa using hf
  | append_singleton y n ih =>
    exact ih (h.fits_above _ n (by simpa using hf)).1

theorem fits_names {x : List String} (hf : Fits x) : ∀ n ∈ x, IsName n := by
  induction x using List.reverseRecOn with
  | nil => simp
  | append_singleton x m ih =>
    obtain ⟨hx, hm⟩ := h.fits_above x m hf
    intro n hn
    rcases List.mem_append.1 hn with hn | hn
    · exact ih hx n hn
    · rwa [List.mem_singleton.1 hn]

include hw

theorem rooted : Rooted (fun a => kindOf a = .directory) IsName (layout w) where
  root := h.root w hw
  name := fun x n a hx => (h.fits_above x n (h.fits w _ a hw hx)).2
  above := fun x n a hx => h.above w x n a hw hx

theorem directory_above {x y : List String} {a : α} (hy : y ≠ []) (hx : layout w (x ++ y) = some a) :
    ∃ d, layout w x = some d ∧ kindOf d = .directory :=
  (h.rooted hw).directory_above hy hx

theorem none_below {x : List String} (hx : layout w x = none) (y : List String) :
    layout w (x ++ y) = none :=
  (h.rooted hw).nothing_within hx (List.prefix_append x y)

/-- Nothing lies in a file. -/
theorem file_leaf {x : List String} {a : α} (hx : layout w x = some a) (ha : kindOf a = .file)
    (n : String) : layout w (x ++ [n]) = none := by
  by_contra hne
  obtain ⟨b, hb⟩ := Option.ne_none_iff_exists'.1 hne
  obtain ⟨d, hd, hdir⟩ := h.above w x n b hw hb
  rw [hx] at hd
  cases hd
  rw [ha] at hdir
  cases hdir

theorem clear_found {x : List String} {a : α} (hx : layout w x = some a) :
    Clear kindOf (layout w) x := by
  rintro y z b rfl hz hb
  obtain ⟨d, hd, hdir⟩ := h.directory_above hw hz hx
  rw [hb] at hd
  cases hd
  exact hdir

theorem clear_child {x : List String} {d : α} (hx : layout w x = some d)
    (hd : kindOf d = .directory) (n : String) : Clear kindOf (layout w) (x ++ [n]) :=
  (h.clear_found hw hx).child hx hd n

theorem kind_found {x : List String} {a : α} (hx : layout w x = some a) :
    outcome (t.kind (.ofNames x)) w = (.ok (some (kindOf a)), w) := by
  rw [h.kind w x hw (h.fits w x a hw hx) (h.clear_found hw hx), hx]
  rfl

end Serves

def placeOf (kindOf : α → EntryKind) (l : Layout α) (n : String) (destination : List String) :
    List String :=
  if isDirectory kindOf l destination then destination ++ [n] else destination

theorem placeOf_forall {kindOf : α → EntryKind} {l : Layout α} {n : String}
    {destination : List String} {P : String → Prop} (hn : P n) (h : ∀ m ∈ destination, P m) :
    ∀ m ∈ placeOf kindOf l n destination, P m := by
  unfold placeOf
  split_ifs
  · simpa [or_imp, forall_and] using ⟨h, hn⟩
  · exact h

theorem placeIn_outcome {t : Tree Run} (kindOf : α → EntryKind) (l : Layout α) {w : World}
    {x destination : List String} {n : String} (hn : IsName n)
    (hkind : outcome (t.kind (.ofNames destination)) w = (.ok ((l destination).map kindOf), w)) :
    outcome (t.placeIn (.ofNames (x ++ [n])) (.ofNames destination)) w =
      (.ok (.ofNames (placeOf kindOf l n destination)), w) := by
  have hname : (Path.ofNames (x ++ [n])).name? = some n := by simp [Path.name?, Path.ofNames]
  unfold placeIn placeOf isDirectory
  rw [outcome_bind_ok hkind, hname]
  cases hl : l destination with
  | none => rfl
  | some a =>
    cases ha : kindOf a with
    | file => simp [ha]
    | directory => simp [ha, Path.ofNames_child destination hn]

/-- The place of a rename has to be free, unless the source is there already. -/
theorem renameTarget_outcome {t : Tree Run} (kindOf : α → EntryKind) (l : Layout α) {w : World}
    {x destination : List String} {n : String} (hn : IsName n)
    (hkind : ∀ y, y = destination ∨ y = placeOf kindOf l n destination →
      outcome (t.kind (.ofNames y)) w = (.ok ((l y).map kindOf), w)) :
    outcome (t.renameTarget (.ofNames (x ++ [n])) (.ofNames destination)) w =
      (if placeOf kindOf l n destination = x ++ [n] ∨ l (placeOf kindOf l n destination) = none
        then .ok (.ofNames (placeOf kindOf l n destination))
        else .error (.alreadyExists (Path.ofNames (placeOf kindOf l n destination)).text), w) := by
  have hplace := hkind _ (.inr rfl)
  have hchosen := placeIn_outcome (x := x) kindOf l hn (hkind _ (.inl rfl))
  unfold renameTarget
  rw [outcome_bind_ok hchosen]
  generalize placeOf kindOf l n destination = y at hplace
  by_cases hy : y = x ++ [n]
  · subst hy
    simp
  · rw [if_neg (fun e => hy (Path.ofNames_injective e)), outcome_bind_ok hplace]
    cases l y <;> simp [hy]

end VolumeFS.Tree
