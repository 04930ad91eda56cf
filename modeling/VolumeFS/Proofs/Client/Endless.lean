import VolumeFS.Proofs.Client.CopyTree

/-!
# Copying a directory into itself

A copy of a directory to a place below it meets what it has just made, and goes
on for ever. What is pending never fails and never runs out: it always has a
directory on the path that leads from the source to the target again and again.
-/

set_option autoImplicit false

namespace VolumeFS

open Volume

namespace Client

structure Ready (l : Tree.Layout Entry) (x : List String) : Prop where
  free : l x = none
  parent : ∃ t n d, x = t ++ [n] ∧ IsName n ∧ l t = some d ∧ d.content = .directory

/-- The copying of a directory at `x` to `x ++ z`. The pending places are told by the names from
the source down. -/
structure Chasing (x z : List String) (pending : List (List String)) (w : World) : Prop where
  wellFormed : w.volume.WellFormed
  nodup : pending.Nodup
  there : ∀ y ∈ pending, Tree.Occupied w.entries (x ++ y)
  ready : ∀ y ∈ pending, Ready w.entries (x ++ z ++ y)
  /-- A prefix of `z ++ z ++ z ++ …` is pending. -/
  ahead : ∃ y ∈ pending, y <+: z ++ y ∧
    ∃ d, w.entries (x ++ y) = some d ∧ d.content = .directory

theorem Ready.put {l : Tree.Layout Entry} {x y : List String} (h : Ready l x) (hne : x ≠ y)
    (hy : l y = none) (e : Entry) : Ready (Function.update l y (some e)) x := by
  obtain ⟨t, n, d, ht, hn, hd, hdir⟩ := h.parent
  exact ⟨by rw [Function.update_of_ne hne, h.free], t, n, d, ht, hn, Tree.update_some_kept hy hd,
    hdir⟩

section Step

variable {x z y : List String} {pending : List (List String)} {w w' : World} {e : Entry}
  {names : List String}
  (h : Chasing x z (y :: pending) w) (he : w.entries (x ++ y) = some e)
  (hv : w'.entries = Function.update w.entries (x ++ z ++ y)
    (some (w.volume.newEntry e.content e.mode)))
  (hw' : w'.volume.WellFormed) (hnodup : names.Nodup)
  (hall : ∀ n, n ∈ names ↔ Tree.Occupied w'.entries (x ++ y ++ [n]))

include h

/-- What is found below a directory just now is not pending yet. -/
theorem Chasing.fresh (n : String) : y ++ [n] ∉ pending := by
  intro hn
  obtain ⟨t, m, d, ht, -, hd, -⟩ := (h.ready (y ++ [n]) (by simp [hn])).parent
  rw [← List.append_assoc] at ht
  obtain ⟨rfl, -⟩ := List.append_inj' ht rfl
  rw [(h.ready y (by simp)).free] at hd
  cases hd

include hv

theorem Chasing.kept {u : List String} {a : Entry} (ha : w.entries u = some a) :
    w'.entries u = some a := by
  rw [hv]
  exact Tree.update_some_kept (h.ready y (by simp)).free ha

theorem Chasing.rest_ready {u : List String} (hu : u ∈ pending) :
    Ready w'.entries (x ++ z ++ u) := by
  rw [hv]
  refine (h.ready u (by simp [hu])).put ?_ (h.ready y (by simp)).free _
  intro heq
  rw [List.append_cancel_left heq] at hu
  exact (List.nodup_cons.1 h.nodup).1 hu

include he hw' hall

theorem Chasing.child_ready {n : String} (hn : n ∈ names) :
    Ready w'.entries (x ++ z ++ (y ++ [n])) := by
  obtain ⟨a, ha⟩ := (hall n).1 hn
  obtain ⟨d, hd, hdir⟩ := hw'.above _ n a ha
  have hsame : w'.entries (x ++ y) = some e := h.kept hv he
  have hdir' : e.content = .directory := by
    rw [World.entries, hd] at hsame
    cases hsame
    exact hdir
  have hfree := (h.ready y (by simp)).free
  rw [← List.append_assoc]
  refine ⟨?_, x ++ z ++ y, n, w.volume.newEntry e.content e.mode, rfl, hw'.name _ n a ha, ?_,
    hdir'⟩
  · rw [hv, Function.update_of_ne (by simp)]
    exact h.wellFormed.nothing_within hfree (List.prefix_append _ _)
  · rw [hv, Function.update_self]

theorem Chasing.still_ahead (hz : z ≠ []) : ∃ u ∈ Tree.childrenOf y names ++ pending,
    u <+: z ++ u ∧ ∃ d, w'.entries (x ++ u) = some d ∧ d.content = .directory := by
  obtain ⟨u, hu, hpre, d, hd, hdir⟩ := h.ahead
  rcases List.mem_cons.1 hu with rfl | hu
  · obtain ⟨tail, htail⟩ := hpre
    cases tail with
    | nil =>
      rw [List.append_nil] at htail
      have hlen := congrArg List.length htail
      rw [List.length_append] at hlen
      exact absurd (List.length_eq_zero_iff.1 (by omega)) hz
    | cons n tail =>
      -- The next name on the path leads towards what was just made.
      have hmade : w'.entries (x ++ u ++ [n] ++ tail) =
          some (w.volume.newEntry e.content e.mode) := by
        have hplace : x ++ u ++ [n] ++ tail = x ++ z ++ u := by
          rw [List.append_assoc x z u, ← htail]
          simp
        rw [hplace, hv, Function.update_self]
      have hnew : ∃ d', w'.entries (x ++ u ++ [n]) = some d' ∧ d'.content = .directory := by
        by_cases ht : tail = []
        · rw [ht, List.append_nil] at hmade
          refine ⟨_, hmade, ?_⟩
          rw [he] at hd
          cases hd
          exact hdir
        · exact hw'.directory_above ht hmade
      obtain ⟨d', hd', hdir'⟩ := hnew
      have hn : n ∈ names := (hall n).2 ⟨d', hd'⟩
      refine ⟨u ++ [n], List.mem_append_left _ (Tree.mem_childrenOf.2 ⟨n, hn, rfl⟩), ?_, d', ?_,
        hdir'⟩
      · refine ⟨tail ++ [n], ?_⟩
        rw [← List.append_assoc z, ← htail]
        simp
      · rwa [← List.append_assoc]
  · exact ⟨u, List.mem_append_right _ hu, hpre, d, h.kept hv hd, hdir⟩

include hnodup

theorem Chasing.step (hz : z ≠ []) : Chasing x z (Tree.childrenOf y names ++ pending) w' where
  wellFormed := hw'
  nodup := by
    refine (Tree.childrenOf_nodup hnodup).append (List.nodup_cons.1 h.nodup).2 ?_
    intro u hu hp
    obtain ⟨n, -, rfl⟩ := Tree.mem_childrenOf.1 hu
    exact h.fresh n hp
  there := by
    intro u hu
    rcases List.mem_append.1 hu with hu | hu
    · obtain ⟨n, hn, rfl⟩ := Tree.mem_childrenOf.1 hu
      rw [← List.append_assoc]
      exact (hall n).1 hn
    · obtain ⟨a, ha⟩ := h.there u (by simp [hu])
      exact ⟨a, h.kept hv ha⟩
  ready := by
    intro u hu
    rcases List.mem_append.1 hu with hu | hu
    · obtain ⟨n, hn, rfl⟩ := Tree.mem_childrenOf.1 hu
      exact h.child_ready he hv hw' hall hn
    · exact h.rest_ready hv hu
  ahead := h.still_ahead he hv hw' hall hz

end Step

theorem copyAll_endless (c : Client Run) {x z : List String} (hz : z ≠ []) (fuel : Nat)
    {pending : List (List String)} {w : World} (h : Chasing x z pending w) :
    (outcome (c.copyAll fuel (pending.map fun y => pairOf x (x ++ z) (x ++ y))) w).1 =
      .error Tree.endless := by
  induction fuel generalizing pending w with
  | zero =>
    obtain ⟨y, hy, -⟩ := h.ahead
    cases pending with
    | nil => cases hy
    | cons u pending => rfl
  | succ fuel ih =>
    cases pending with
    | nil =>
      obtain ⟨y, hy, -⟩ := h.ahead
      cases hy
    | cons y pending =>
      obtain ⟨e, he⟩ := h.there y (by simp)
      obtain ⟨t, n, d, ht, hn, hd, hdir⟩ := (h.ready y (by simp)).parent
      have hfree := (h.ready y (by simp)).free
      rw [ht] at hfree
      obtain ⟨names, w', hcopy, hv, -, hnodup, hall⟩ :=
        c.copyEntry_ok h.wellFormed he hn hfree hd hdir
      have hw' : w'.volume.WellFormed := hv ▸ copied_wellFormed h.wellFormed he hn hfree hd hdir
      have hentries : w'.entries = Function.update w.entries (x ++ z ++ y)
          (some (w.volume.newEntry e.content e.mode)) := by
        rw [ht, ← entries_put, ← hv]
        rfl
      rw [List.map_cons, pairOf_below, copyAll, ht, outcome_bind_ok hcopy, ← ht,
        pairsBelow_reverse]
      have hchildren : (Tree.childrenOf (x ++ y) names).map (pairOf x (x ++ z)) =
          (Tree.childrenOf y names).map fun u => pairOf x (x ++ z) (x ++ u) := by
        simp [Tree.childrenOf, Function.comp_def]
      rw [hchildren, ← List.map_append]
      exact ih (h.step he hentries hw' hnodup hall hz)

/-- However many steps it may take, copying a directory to a free place below it does not end. -/
theorem copy_below_endless (c : Client Run) {w : World} (hw : w.volume.WellFormed)
    {x t : List String} {n : String} {d : Entry} (hn : IsName n)
    (hbelow : x <+: t) (hfree : w.entries (t ++ [n]) = none) (hd : w.entries t = some d)
    (hdir : d.content = .directory) (fuel : Nat) :
    (outcome (c.copyAll fuel [(.ofNames x, .ofNames (t ++ [n]))]) w).1 = .error Tree.endless := by
  obtain ⟨z, rfl⟩ := hbelow
  have hx : ∃ e, w.entries x = some e ∧ e.content = .directory := by
    by_cases hz : z = []
    · exact ⟨d, by simpa [hz] using hd, hdir⟩
    · exact hw.directory_above hz hd
  obtain ⟨e, he, hedir⟩ := hx
  have hchase : Chasing x (z ++ [n]) [[]] w := by
    refine ⟨hw, List.nodup_singleton _, ?_, ?_, [], by simp, List.nil_prefix, e, by simpa using he,
      hedir⟩
    · intro y hy
      rw [List.mem_singleton.1 hy]
      exact ⟨e, by simpa using he⟩
    · intro y hy
      rw [List.mem_singleton.1 hy, List.append_nil, ← List.append_assoc]
      exact ⟨hfree, x ++ z, n, d, rfl, hn, hd, hdir⟩
  have hend := copyAll_endless c (by simp) fuel hchase
  rw [List.map_singleton, pairOf_below, List.append_nil, List.append_nil,
    ← List.append_assoc] at hend
  exact hend

/-- The copy that this rename begins with does not end, however many steps it may take. -/
def EndlessRename (c : Client Run) (w : World) (source destination : Path) : Prop :=
  ∃ p q target, c.resolver.resolve source = .ok p ∧ c.resolver.resolve destination = .ok q ∧
    (outcome ((tree : Tree Run).renameTarget p q) w).1 = .ok target ∧
    ∀ fuel, (outcome (c.copyAll fuel [(p, target)]) w).1 = .error Tree.endless

end Client

end VolumeFS
