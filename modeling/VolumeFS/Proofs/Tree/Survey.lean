import Mathlib.Data.List.Basic
import Mathlib.Data.List.Infix
import Mathlib.Data.List.Nodup
import VolumeFS.Proofs.Tree.Layout

/-!
# Surveys of a tree

A survey of what lies at and below a place has found some places, and of these
it has not yet looked below the pending ones. Each place is found after those
above it. To expand a pending place is to find all its children; a survey
without pending places is complete.
-/

set_option autoImplicit false

namespace VolumeFS

/-- Found places, the latest first. `Has` tells which places the tree has. -/
structure Survey (Has : List String → Prop) (top : List String)
    (found pending : List (List String)) : Prop where
  top_found : top ∈ found
  has : ∀ x ∈ found, Has x ∧ top <+: x
  ordered : found.Pairwise fun x y => ¬ x <+: y
  above : ∀ x n, x ++ [n] ∈ found → x ++ [n] ≠ top → x ∈ found
  pending_found : ∀ x ∈ pending, x ∈ found
  pending_nodup : pending.Nodup
  closed : ∀ x ∈ found, x ∉ pending → ∀ n, Has (x ++ [n]) → x ++ [n] ∈ found
  fresh : ∀ x ∈ pending, ∀ n, x ++ [n] ∉ found

namespace Survey

variable {Has : List String → Prop} {top x : List String} {found pending : List (List String)}

theorem start (h : Has top) : Survey Has top [top] [top] where
  top_found := by simp
  has := by simpa using h
  ordered := by simp
  above := by
    intro x n hx hne
    exact absurd (List.mem_singleton.1 hx) hne
  pending_found := by simp
  pending_nodup := by simp
  closed := by simp
  fresh := by simp

theorem nodup (s : Survey Has top found pending) : found.Nodup := by
  refine s.ordered.imp (fun {a b} h => ?_)
  rintro rfl
  exact h (List.prefix_refl a)

/-- All places between the top and a found place are found. -/
theorem between (s : Survey Has top found pending) {y z : List String}
    (hz : y ++ z ∈ found) (hy : top <+: y) : y ∈ found := by
  induction z using List.reverseRecOn with
  | nil => simpa using hz
  | append_singleton z n ih =>
    refine ih (s.above (y ++ z) n (by simpa using hz) fun e => ?_)
    rw [← e, List.append_assoc] at hy
    exact Tree.below_not_above (by simp) hy

section Expand

variable (s : Survey Has top found (x :: pending)) {children later : List (List String)}
  (hchild : ∀ y ∈ children, ∃ n, y = x ++ [n])

include s

theorem first_found : x ∈ found := s.pending_found x (by simp)

/-- What is below a place that was found only now would have been found after it. -/
theorem nothing_further {n : String} (hnew : x ++ [n] ∉ found) (z : List String) :
    x ++ [n] ++ z ∉ found := fun hz =>
  hnew (s.between hz ((s.has x s.first_found).2.trans (List.prefix_append x [n])))

include hchild

theorem children_new {y : List String} (hy : y ∈ children) : y ∉ found := by
  obtain ⟨n, rfl⟩ := hchild y hy
  exact s.fresh x (by simp) n

theorem expand_ordered (hnodup : children.Nodup) :
    (children ++ found).Pairwise fun y z => ¬ y <+: z := by
  refine List.pairwise_append.2 ⟨?_, s.ordered, ?_⟩
  · refine hnodup.imp_of_mem (fun ha hb hne hab => hne ?_)
    obtain ⟨a, rfl⟩ := hchild _ ha
    obtain ⟨b, rfl⟩ := hchild _ hb
    exact hab.eq_of_length (by simp)
  · rintro y hy b hb ⟨z, rfl⟩
    have hnew := s.children_new hchild hy
    obtain ⟨n, rfl⟩ := hchild y hy
    exact s.nothing_further hnew z hb

theorem expand_above (y : List String) (n : String) (hy : y ++ [n] ∈ children ++ found)
    (hne : y ++ [n] ≠ top) : y ∈ children ++ found := by
  rcases List.mem_append.1 hy with hy | hy
  · obtain ⟨m, hm⟩ := hchild _ hy
    obtain ⟨rfl, -⟩ := List.append_inj' hm rfl
    exact List.mem_append_right _ s.first_found
  · exact List.mem_append_right _ (s.above y n hy hne)

omit hchild in
theorem expand_closed (hall : ∀ n, x ++ [n] ∈ children ↔ Has (x ++ [n]))
    (hleaf : ∀ y ∈ children, y ∉ later → ∀ n, ¬ Has (y ++ [n])) :
    ∀ y ∈ children ++ found, y ∉ later ++ pending → ∀ n, Has (y ++ [n]) →
      y ++ [n] ∈ children ++ found := by
  intro y hy hnp n hn
  rcases List.mem_append.1 hy with hy | hy
  · exact absurd hn (hleaf y hy (fun hl => hnp (List.mem_append_left _ hl)) n)
  · by_cases hyx : y = x
    · subst hyx
      exact List.mem_append_left _ ((hall n).2 hn)
    · refine List.mem_append_right _ (s.closed y hy ?_ n hn)
      intro hp
      rcases List.mem_cons.1 hp with hp | hp
      · exact hyx hp
      · exact hnp (List.mem_append_right _ hp)

theorem expand_fresh (hlater : ∀ y ∈ later, y ∈ children) :
    ∀ y ∈ later ++ pending, ∀ n, y ++ [n] ∉ children ++ found := by
  intro y hy n hn
  rcases List.mem_append.1 hn with hn | hn
  · obtain ⟨m, hm⟩ := hchild _ hn
    obtain ⟨rfl, -⟩ := List.append_inj' hm rfl
    rcases List.mem_append.1 hy with hy | hy
    · exact s.children_new hchild (hlater _ hy) s.first_found
    · exact (List.nodup_cons.1 s.pending_nodup).1 hy
  · rcases List.mem_append.1 hy with hy | hy
    · have hnew := s.children_new hchild (hlater y hy)
      obtain ⟨m, rfl⟩ := hchild y (hlater y hy)
      exact s.nothing_further hnew [n] hn
    · exact s.fresh y (by simp [hy]) n hn

end Expand

/-- The children of the first pending place are found, and of these the new pending ones have
still to be looked below. -/
theorem expand (s : Survey Has top found (x :: pending)) {children later : List (List String)}
    (hnodup : children.Nodup) (hchild : ∀ y ∈ children, ∃ n, y = x ++ [n])
    (hall : ∀ n, x ++ [n] ∈ children ↔ Has (x ++ [n]))
    (hlater : ∀ y ∈ later, y ∈ children) (hlater' : later.Nodup)
    (hleaf : ∀ y ∈ children, y ∉ later → ∀ n, ¬ Has (y ++ [n])) :
    Survey Has top (children ++ found) (later ++ pending) where
  top_found := List.mem_append_right _ s.top_found
  has := by
    intro y hy
    rcases List.mem_append.1 hy with hy | hy
    · obtain ⟨n, rfl⟩ := hchild y hy
      exact ⟨(hall n).1 hy, (s.has x s.first_found).2.trans (List.prefix_append x [n])⟩
    · exact s.has y hy
  ordered := s.expand_ordered hchild hnodup
  above := s.expand_above hchild
  pending_found := by
    intro y hy
    rcases List.mem_append.1 hy with hy | hy
    · exact List.mem_append_left _ (hlater y hy)
    · exact List.mem_append_right _ (s.pending_found y (by simp [hy]))
  pending_nodup := by
    refine hlater'.append (List.nodup_cons.1 s.pending_nodup).2 fun y hl hp => ?_
    exact s.children_new hchild (hlater y hl) (s.pending_found y (by simp [hp]))
  closed := s.expand_closed hall hleaf
  fresh := s.expand_fresh hchild hlater

theorem complete (s : Survey Has top found [])
    (hup : ∀ x n, top <+: x → Has (x ++ [n]) → Has x) (x : List String) :
    x ∈ found ↔ top <+: x ∧ Has x := by
  constructor
  · intro hx
    exact ⟨(s.has x hx).2, (s.has x hx).1⟩
  · rintro ⟨⟨z, rfl⟩, hz⟩
    induction z using List.reverseRecOn with
    | nil => simpa using s.top_found
    | append_singleton z n ih =>
      rw [← List.append_assoc] at hz ⊢
      exact s.closed _ (ih (hup _ n (List.prefix_append _ _) hz)) (by simp) n hz

end Survey

end VolumeFS
