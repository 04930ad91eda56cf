import VolumeFS.Proofs.Names
import VolumeFS.Proofs.Parallel.Protocol

/-!
# Making directories beside others

While a party makes the directories down to a place, others may make some of
them too. If then the attempt to make one fails only where it is there, no
attempt has to be made again.
-/

set_option autoImplicit false

namespace VolumeFS.Protocol

variable {ι σ τ : Type}

/-- `There` tells that the directories down to a place are there. What is next on the way to `x` is
there too, or it can be made, or somebody else makes it. -/
structure Paves (P : Protocol ι σ τ) (i : ι) (t : Tree (Steps σ)) (There : List String → τ → Prop)
    (x : List String) : Prop where
  look : ∀ y n s, y ++ [n] <+: x → There y s →
    P.Keeps i (fun found s' =>
      (found = .ok none ∧ P.Keeps i (fun _ s'' => There (y ++ [n]) s'')
        (t.makeDirectory (.ofNames (y ++ [n]))).run s') ∨
      (found = .ok (some .directory) ∧ There (y ++ [n]) s')) (t.kind (.ofNames (y ++ [n]))).run s
  again : ∀ y n s, y ++ [n] <+: x → There (y ++ [n]) s →
    P.Keeps i (fun found s' => found = .ok (some .directory) ∧ There (y ++ [n]) s')
      (t.kind (.ofNames (y ++ [n]))).run s

namespace Paves

variable {P : Protocol ι σ τ} {i : ι} {t : Tree (Steps σ)} {There : List String → τ → Prop}
  {x : List String} (h : P.Paves i t There x)

include h

section Next

variable {y : List String} {n : String} {s : τ} (hx : y ++ [n] <+: x)
  (hmake : P.Keeps i (fun _ s' => There (y ++ [n]) s') (t.makeDirectory (.ofNames (y ++ [n]))).run s)

include hx hmake

theorem makeOnce : P.Gives i (fun fault? s' => fault? = none ∧ There (y ++ [n]) s')
    (t.makeOnce (.ofNames (y ++ [n]))) s := by
  refine keeps_bind (keeps_attempt (hmake.mono fun made s₁ hs₁ => ?_))
  cases made with
  | ok _ => exact ⟨none, rfl, rfl, hs₁⟩
  | error fault =>
    -- Somebody else was faster.
    refine keeps_bind ((h.again y n s₁ hx hs₁).mono fun found s₂ hfound => ?_)
    obtain ⟨rfl, hs₂⟩ := hfound
    exact ⟨none, rfl, rfl, hs₂⟩

theorem makeTrying : P.Gives i (fun _ s' => There (y ++ [n]) s')
    (t.makeTrying (.ofNames (y ++ [n])) 0 Tree.retries) s := by
  change P.Gives i _ (t.makeTrying _ 0 (3 + 1)) s
  rw [Tree.makeTrying]
  refine (h.makeOnce hx hmake).next fun fault? s₁ hmade => ?_
  obtain ⟨rfl, hs₁⟩ := hmade
  exact ⟨(), rfl, hs₁⟩

end Next

theorem makeAll (rest way : List String) {s : τ} (hx : way ++ rest = x) (hs : There way s) :
    P.Gives i (fun _ s' => There x s') (t.makeAll (Path.descent way rest)) s := by
  induction rest generalizing way s with
  | nil =>
    rw [List.append_nil] at hx
    subst hx
    exact ⟨(), rfl, hs⟩
  | cons n rest ih =>
    have hnext : way ++ [n] ++ rest = x := by rw [← hx, List.append_assoc, List.singleton_append]
    have hprefix : way ++ [n] <+: x := ⟨rest, hnext⟩
    rw [Path.descent, Tree.makeAll]
    refine keeps_bind ((h.look way n s hprefix hs).mono fun found s₁ hfound => ?_)
    obtain ⟨rfl, hmake⟩ | ⟨rfl, hs₁⟩ := hfound
    · exact (h.makeTrying hprefix hmake).next fun _ s₂ hs₂ => ih (way ++ [n]) hnext hs₂
    · exact ih (way ++ [n]) hnext hs₁

theorem mkdirs {s : τ} (hs : There [] s) :
    P.Gives i (fun _ s' => There x s') (t.mkdirs (.ofNames x)) s := by
  unfold Tree.mkdirs
  rw [Path.ofNames_lineage]
  exact h.makeAll x [] rfl hs

/-- The directory above a place is made with all that it lies in. -/
theorem ensureParent (n : String) {s : τ} (hs : There [] s) :
    P.Gives i (fun _ s' => There x s') (t.ensureParent (.ofNames (x ++ [n]))) s := by
  unfold Tree.ensureParent
  rw [Path.ofNames_parent]
  dsimp only
  split_ifs with hroot
  · obtain rfl : x = [] := by simpa [Path.isRoot, Path.ofNames] using hroot
    exact ⟨(), rfl, hs⟩
  · exact h.mkdirs hs

end Paves

end VolumeFS.Protocol
