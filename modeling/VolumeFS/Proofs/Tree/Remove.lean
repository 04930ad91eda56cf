import VolumeFS.Proofs.Tree.Partial

/-!
# Removing trees

A served layout is a fragile tree in which no call fails. A delete of it finds
what lies at and below its path and removes all of that, or it is refused where
nothing is, or where a directory is not empty.
-/

set_option autoImplicit false

namespace VolumeFS.Tree

variable {α : Type}

namespace Serves

variable {t : Tree Run} {kindOf : α → EntryKind} {layout : World → Layout α}
  {Sound : World → Prop} {Fits : List String → Prop}
  (h : Serves t kindOf layout Sound Fits) {w : World} (hw : Sound w)

include h

theorem fragile {top : List String} (htop : top ≠ []) :
    Fragile t kindOf layout Sound .none top where
  names := fun w x a hw _ hx => h.fits_names (h.fits w x a hw hx)
  above := fun w x n a hw _ hx => h.above w x n a hw hx
  kind := fun w x a hw _ hx => h.kind_found hw hx
  childNames := fun w x d hw _ hx hdir => h.childNames w x d hw hx hdir
  removal_fails := fun w x a fault _ _ _ hfail => by cases hfail
  removal := fun w x a hw hx ha hleaf _ =>
    h.removeEntry w x a hw (fun h0 => htop (List.prefix_nil.1 (h0 ▸ hx))) ha hleaf
  reach := fun w hw => by
    obtain ⟨n, hn, hbound⟩ := h.reach w hw
    refine ⟨n, hn, fun l hl hall => Nat.le_succ_of_le (hbound l hl fun x hx => ?_)⟩
    exact isDirectory_iff.1 (hall x hx).2

include hw

/-- Removing a place with nothing in it leaves nothing at or below it. -/
theorem without_leaf {x : List String} (hleaf : ∀ n, layout w (x ++ [n]) = none) :
    Function.update (layout w) x none = without (layout w) x := by
  funext y
  unfold without
  by_cases hy : y = x
  · rw [hy, Function.update_self, if_pos (List.prefix_refl _)]
  · rw [Function.update_of_ne hy]
    split_ifs with hp
    · obtain ⟨z, rfl⟩ := hp
      obtain ⟨n, z, rfl⟩ := List.exists_cons_of_ne_nil (fun hz : z = [] => hy (by simp [hz]))
      simpa using h.none_below hw (hleaf n) z
    · rfl

theorem remove_directory {x : List String} (hx : x ≠ []) {d : α} (hd : layout w x = some d)
    (hdir : kindOf d = .directory) (recursive : Bool)
    (hallowed : recursive = true ∨ ∀ n, layout w (x ++ [n]) = none) :
    ∃ w', outcome (t.remove (.ofNames x) recursive) w = (.ok (), w') ∧ Sound w' ∧
      layout w' = without (layout w) x := by
  rcases (h.fragile hx).remove_ending hw hd hdir recursive hallowed with
    ⟨fault, ⟨y, -, -, hlook, -⟩, -⟩ | ⟨-, removed, left, w', hprogress, hw', -, hresult⟩
  · rw [Failures.none_look] at hlook
    cases hlook
  · rcases hresult with ⟨hleft, hend⟩ | ⟨failed, rest, cause, -, hfail, -⟩
    · exact ⟨w', hend, hw', hprogress.gone_all hleft⟩
    · cases hfail

/-- A place where nothing is cannot be deleted, nor, unless recursively, a directory that is not
empty. Otherwise a delete leaves nothing at or below the place and keeps all else. -/
theorem remove_outcome {x : List String} (hx : x ≠ []) (hkind :
    outcome (t.kind (.ofNames x)) w = (.ok ((layout w x).map kindOf), w)) (recursive : Bool) :
    (layout w x = none ∧
      outcome (t.remove (.ofNames x) recursive) w = (.error (.notFound (Path.ofNames x).text), w)) ∨
    (∃ d, layout w x = some d ∧ kindOf d = .directory ∧ (∃ n, Occupied (layout w) (x ++ [n])) ∧
      recursive = false ∧ outcome (t.remove (.ofNames x) recursive) w =
        (.error (.directoryNotEmpty (Path.ofNames x).text), w)) ∨
    (∃ a w', layout w x = some a ∧ (recursive = true ∨ ∀ n, layout w (x ++ [n]) = none) ∧
      outcome (t.remove (.ofNames x) recursive) w = (.ok (), w') ∧ Sound w' ∧
      layout w' = without (layout w) x) := by
  cases hl : layout w x with
  | none =>
    rw [hl] at hkind
    unfold remove
    rw [outcome_bind_ok hkind]
    exact .inl ⟨rfl, rfl⟩
  | some a =>
    rw [hl] at hkind
    dsimp only [Option.map_some] at hkind
    refine .inr ?_
    cases ha : kindOf a with
    | file =>
      have hleaf := h.file_leaf hw hl ha
      obtain ⟨w', hremove, hw', hl'⟩ := h.removeEntry w x a hw hx hl hleaf
      refine .inr ⟨a, w', rfl, .inr hleaf, ?_, hw', hl'.trans (h.without_leaf hw hleaf)⟩
      rw [ha] at hkind hremove
      unfold remove
      rw [outcome_bind_ok hkind]
      exact hremove
    | directory =>
      by_cases hallowed : recursive = true ∨ ∀ n, layout w (x ++ [n]) = none
      · obtain ⟨w', hremove, hw', hl'⟩ := h.remove_directory hw hx hl ha recursive hallowed
        exact .inr ⟨a, w', rfl, hallowed, hremove, hw', hl'⟩
      · obtain ⟨hrecursive, hfull⟩ := not_or.1 hallowed
        obtain ⟨n, hn⟩ := not_forall.1 hfull
        have hthere : Occupied (layout w) (x ++ [n]) := Option.ne_none_iff_exists'.1 hn
        obtain ⟨names, hnames, -, hall⟩ := h.childNames w x a hw hl ha
        have hfalse : recursive = false := by simpa using hrecursive
        refine .inl ⟨a, rfl, ha, ⟨n, hthere⟩, hfalse, ?_⟩
        have hne : names ≠ [] := List.ne_nil_of_mem ((hall n).2 hthere)
        rw [ha] at hkind
        unfold remove
        rw [outcome_bind_ok hkind]
        dsimp only
        rw [outcome_bind_ok hnames, if_pos (by simp [hne, hfalse])]
        rfl

end Serves

end VolumeFS.Tree
