import VolumeFS.Proofs.Tree.Serves

/-!
# Making directories

On a tree that serves its layout, making a directory with its parents either
meets a file on the way, before anything was made, or makes exactly those that
were missing.
-/

set_option autoImplicit false

namespace VolumeFS.Tree

variable {α : Type}

structure Made (kindOf : α → EntryKind) (before after : Layout α) (x : List String) : Prop where
  kept : ∀ y a, before y = some a → after y = some a
  only : ∀ y, ¬ y <+: x → after y = before y
  made : ∀ y, y <+: x → ∃ d, after y = some d ∧ kindOf d = .directory

theorem trying_first {t : Tree Run} {p : Path} {w w' : World}
    (h : outcome (t.makeDirectory p) w = (.ok (), w')) :
    outcome (t.makeTrying p 0 retries) w = (.ok (), w') := by
  have honce : outcome (t.makeOnce p) w = (.ok none, w') := by
    unfold makeOnce
    rw [outcome_bind_ok (outcome_attempt _ w), h]
    rfl
  change outcome (t.makeTrying p 0 (3 + 1)) w = _
  rw [makeTrying, outcome_bind_ok honce]
  rfl

namespace Serves

variable {t : Tree Run} {kindOf : α → EntryKind} {layout : World → Layout α}
  {Sound : World → Prop} {Fits : List String → Prop}
  (h : Serves t kindOf layout Sound Fits)

include h

theorem made_already {w : World} (hw : Sound w) {x : List String} {d : α}
    (hd : layout w x = some d) (hdir : kindOf d = .directory) :
    Made kindOf (layout w) (layout w) x := by
  refine ⟨fun _ _ hy => hy, fun _ _ => rfl, ?_⟩
  rintro y ⟨z, rfl⟩
  by_cases hz : z = []
  · exact ⟨d, by simpa [hz] using hd, hdir⟩
  · exact h.directory_above hw hz hd

/-- Where the next name leads nowhere, all directories on the way down are made. -/
theorem makeAll_missing (rest way : List String) {w : World} (hw : Sound w) {d : α}
    (hd : layout w way = some d) (hdir : kindOf d = .directory)
    (hnone : ∀ n ∈ rest.head?, layout w (way ++ [n]) = none) (hfits : Fits (way ++ rest)) :
    ∃ w', outcome (t.makeAll (Path.descent way rest)) w = (.ok (), w') ∧ Sound w' ∧
      Made kindOf (layout w) (layout w') (way ++ rest) := by
  induction rest generalizing way w d with
  | nil =>
    rw [List.append_nil]
    exact ⟨w, rfl, hw, h.made_already hw hd hdir⟩
  | cons n rest ih =>
    have hsplit : way ++ n :: rest = (way ++ [n]) ++ rest := by simp
    rw [hsplit] at hfits ⊢
    have hfit := h.fits_upper hfits
    have hn : layout w (way ++ [n]) = none := hnone n rfl
    have hkind := h.kind w (way ++ [n]) hw hfit (h.clear_child hw hd hdir n)
    rw [hn] at hkind
    obtain ⟨w₁, a, hmake, hw₁, ha, hl₁⟩ := h.make w way n d hw hfit hd hdir hn
    have hnew : layout w₁ (way ++ [n]) = some a := by rw [hl₁, Function.update_self]
    have hold : ∀ y, y ≠ way ++ [n] → layout w₁ y = layout w y := by
      intro y hy
      rw [hl₁, Function.update_of_ne hy]
    have hnone₁ : ∀ m ∈ rest.head?, layout w₁ (way ++ [n] ++ [m]) = none := by
      intro m _
      rw [hold _ (by simp)]
      exact h.none_below hw hn [m]
    obtain ⟨w₂, hrest, hw₂, hmade⟩ := ih (way ++ [n]) hw₁ hnew ha hnone₁ hfits
    refine ⟨w₂, ?_, hw₂, ?_, ?_, hmade.made⟩
    · rw [Path.descent, makeAll, outcome_bind_ok hkind]
      change outcome (t.makeTrying _ 0 retries >>= _) w = _
      rw [outcome_bind_ok (trying_first hmake), hrest]
    · intro y b hy
      refine hmade.kept y b ?_
      rw [hold y ?_, hy]
      rintro rfl
      rw [hn] at hy
      cases hy
    · intro y hy
      rw [hmade.only y hy, hold y ?_]
      rintro rfl
      exact hy (List.prefix_append _ _)

/-- The directories on the way down are made, or a file on the way stops it before any was. -/
theorem makeAll_outcome (rest way : List String) {w : World} (hw : Sound w) {d : α}
    (hd : layout w way = some d) (hdir : kindOf d = .directory) (hfits : Fits (way ++ rest)) :
    (∃ y a path, y <+: way ++ rest ∧ layout w y = some a ∧ kindOf a = .file ∧
      outcome (t.makeAll (Path.descent way rest)) w = (.error (.alreadyExists path), w)) ∨
    ∃ w', outcome (t.makeAll (Path.descent way rest)) w = (.ok (), w') ∧ Sound w' ∧
      Made kindOf (layout w) (layout w') (way ++ rest) := by
  induction rest generalizing way d with
  | nil =>
    rw [List.append_nil]
    exact .inr ⟨w, rfl, hw, h.made_already hw hd hdir⟩
  | cons n rest ih =>
    have hsplit : way ++ n :: rest = (way ++ [n]) ++ rest := by simp
    cases hn : layout w (way ++ [n]) with
    | none =>
      refine .inr (h.makeAll_missing (n :: rest) way hw hd hdir ?_ hfits)
      rintro m ⟨⟩
      exact hn
    | some a =>
      rw [hsplit] at hfits ⊢
      have hkind := h.kind_found hw hn
      rw [Path.descent, makeAll, outcome_bind_ok hkind]
      cases ha : kindOf a with
      | directory => exact ih (way ++ [n]) hn ha hfits
      | file => exact .inl ⟨way ++ [n], a, _, List.prefix_append _ _, hn, ha, rfl⟩

theorem mkdirs_outcome (x : List String) {w : World} (hw : Sound w) (hfits : Fits x) :
    (∃ y a path, y <+: x ∧ layout w y = some a ∧ kindOf a = .file ∧
      outcome (t.mkdirs (.ofNames x)) w = (.error (.alreadyExists path), w)) ∨
    ∃ w', outcome (t.mkdirs (.ofNames x)) w = (.ok (), w') ∧ Sound w' ∧
      Made kindOf (layout w) (layout w') x := by
  obtain ⟨d, hd, hdir⟩ := h.root w hw
  unfold mkdirs
  rw [Path.ofNames_lineage]
  exact h.makeAll_outcome x [] hw hd hdir hfits

/-- Making the directory above a place makes all directories down to it. -/
theorem ensureParent_outcome (x : List String) (n : String) {w : World} (hw : Sound w)
    (hfits : Fits (x ++ [n])) :
    (∃ y a path, y <+: x ∧ layout w y = some a ∧ kindOf a = .file ∧
      outcome (t.ensureParent (.ofNames (x ++ [n]))) w = (.error (.alreadyExists path), w)) ∨
    ∃ w', outcome (t.ensureParent (.ofNames (x ++ [n]))) w = (.ok (), w') ∧ Sound w' ∧
      Made kindOf (layout w) (layout w') x := by
  unfold ensureParent
  rw [Path.ofNames_parent]
  dsimp only
  split_ifs with hroot
  · have hx : x = [] := by simpa [Path.isRoot, Path.ofNames] using hroot
    subst hx
    obtain ⟨d, hd, hdir⟩ := h.root w hw
    exact .inr ⟨w, rfl, hw, h.made_already hw hd hdir⟩
  · exact h.mkdirs_outcome x hw (h.fits_upper hfits)

end Serves

end VolumeFS.Tree
