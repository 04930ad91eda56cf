import VolumeFS.Proofs.Client.Copy

/-!
# Copying a tree outside of itself

Copying goes through the pending pairs and adds what lies below them. What is
pending or copied is a survey of the tree as it was: each entry is copied once,
after the directory it lies in, to a place where nothing is. As many steps as
there are entries are enough.
-/

set_option autoImplicit false

namespace VolumeFS

open Volume

namespace Client

/-- From the pending pairs on, the pairs are copied in this order, each to a place where nothing
is, and leave that world. -/
inductive Copies (c : Client Run) :
    List (Path × Path) → World → List (Path × Path) → World → Prop
  | done (w : World) : Copies c [] w [] w
  | entry {source target : Path} {pending below order : List (Path × Path)} {w w₁ w₂ : World} :
      w.volume.find? (key target) = none →
      outcome (c.copyEntry source target) w = (.ok below, w₁) →
      Copies c (below.reverse ++ pending) w₁ order w₂ →
      Copies c ((source, target) :: pending) w ((source, target) :: order) w₂

theorem copyTree_outcome (c : Client Run) (source target : Path) (w : World) :
    outcome (c.copyTree source target) w =
      outcome (c.copyAll (w.volume.entries.length + 1) [(source, target)]) w := by
  have hreach : outcome (liftM (VolumeAccess.reach : Run Nat)) w =
      (.ok w.volume.entries.length, w) := rfl
  unfold copyTree
  exact outcome_bind_ok hreach _

/-- Where the target has no directory to lie in, nothing is copied. -/
theorem copyTree_orphan (c : Client Run) {x t : List String} {n : String} {w : World}
    (hnames : ∀ m ∈ t ++ [n], IsName m) (ht : ∀ d, w.entries t = some d → d.content ≠ .directory) :
    ∃ fault, outcome (c.copyTree (.ofNames x) (.ofNames (t ++ [n]))) w = (.error fault, w) ∧
      OfEntry fault ∧
      (w.entries t = none → w.entries (t ++ [n]) = none → ∃ path, fault = .notFound path) := by
  obtain ⟨fault, hcopy, hknown⟩ := copyEntry_orphan (x := x) c hnames ht
  refine ⟨fault, ?_, hknown⟩
  rw [copyTree_outcome, copyAll]
  exact outcome_bind_error hcopy _

theorem copyAll_copies {c : Client Run} {pending order : List (Path × Path)} {w w' : World}
    (h : Copies c pending w order w') (fuel : Nat) (hfuel : order.length ≤ fuel) :
    outcome (c.copyAll fuel pending) w = (.ok (), w') := by
  induction h generalizing fuel with
  | done w =>
    rw [copyAll]
    rfl
  | entry hfree hcopy hrest ih =>
    cases fuel with
    | zero => cases hfuel
    | succ fuel =>
      rw [copyAll, outcome_bind_ok hcopy]
      exact ih fuel (by simpa using hfuel)

def pairOf (x target z : List String) : Path × Path :=
  (.ofNames z, .ofNames (target ++ z.drop x.length))

theorem pairOf_below (x target y : List String) :
    pairOf x target (x ++ y) = (.ofNames (x ++ y), .ofNames (target ++ y)) := by
  rw [pairOf, List.drop_left]

theorem pairsBelow_reverse (x target y : List String) (names : List String) :
    (pairsBelow (x ++ y) (target ++ y) names).reverse =
      (Tree.childrenOf (x ++ y) names).map (pairOf x target) := by
  rw [pairsBelow, Tree.childrenOf, List.map_reverse, List.map_map]
  refine congrArg List.reverse (List.map_congr_left fun n _ => ?_)
  simp only [Function.comp_apply, List.append_assoc, pairOf_below]

def copyOf (v : Volume) (e : Entry) : Entry := v.newEntry e.content e.mode

/-- The copying of a tree halfway: what was copied, all places that were met, and those of them
that are pending. -/
structure Copying (before : World) (x target : List String) (copied found pending : List (List String))
    (w : World) : Prop where
  survey : Survey (Tree.Occupied before.entries) x found pending
  parts : found.Perm (copied ++ pending)
  wellFormed : w.volume.WellFormed
  owner : w.volume.owner = before.volume.owner
  outside : ∀ y, ¬ target <+: y → w.entries y = before.entries y
  inside : ∀ y, w.entries (target ++ y) =
    if x ++ y ∈ copied then (before.entries (x ++ y)).map (copyOf before.volume) else none

section Outside

variable {c : Client Run} {before : World} (hw : before.volume.WellFormed) {x p : List String}
  {n : String} {d : Entry} (hn : IsName n) (hd : before.entries p = some d)
  (hdir : d.content = .directory) (hout : ∀ y, ¬ p ++ [n] <+: x ++ y)

include hw hn hd hdir

/-- The parent of a pending place was copied before. -/
theorem Copying.parent {copied found pending : List (List String)} {w : World} {y : List String}
    (h : Copying before x (p ++ [n]) copied found ((x ++ y) :: pending) w) :
    ∃ t m d', p ++ [n] ++ y = t ++ [m] ∧ IsName m ∧ w.entries t = some d' ∧
      d'.content = .directory := by
  rcases List.eq_nil_or_concat y with rfl | ⟨y, m, rfl⟩
  · refine ⟨p, n, d, by simp, hn, ?_, hdir⟩
    rw [h.outside p (Tree.below_not_above (by simp)), hd]
  · rw [List.concat_eq_append] at h ⊢
    have hfound : x ++ (y ++ [m]) ∈ found := h.survey.pending_found _ (by simp)
    obtain ⟨a, ha⟩ := (h.survey.has _ hfound).1
    rw [← List.append_assoc] at ha hfound
    have hparent : x ++ y ∈ found := h.survey.above _ m hfound (by simp)
    have hcopied : x ++ y ∈ copied := by
      rcases List.mem_append.1 (h.parts.mem_iff.1 hparent) with hc | hp
      · exact hc
      · exact absurd hfound (h.survey.fresh _ hp m)
    obtain ⟨e, he, hedir⟩ := hw.above (x ++ y) m a ha
    refine ⟨p ++ [n] ++ y, m, copyOf before.volume e, by simp, hw.name _ m a ha, ?_, hedir⟩
    rw [h.inside, if_pos hcopied]
    exact congrArg (Option.map _) he

omit hw hn hd hdir in
/-- Nothing was put yet in the place that the first pending one is copied to. -/
theorem Copying.free {copied found pending : List (List String)} {w : World} {y : List String}
    (h : Copying before x (p ++ [n]) copied found ((x ++ y) :: pending) w) :
    x ++ y ∉ copied ∧ w.entries (p ++ [n] ++ y) = none := by
  have hnew : x ++ y ∉ copied := by
    have hnodup := h.parts.nodup_iff.1 h.survey.nodup
    intro hc
    exact (List.nodup_append.1 hnodup).2.2 _ hc (x ++ y) (by simp) rfl
  exact ⟨hnew, by rw [h.inside, if_neg hnew]⟩

omit hw hn hd hdir in
theorem Copying.parts_after {copied found pending children : List (List String)} {w : World}
    {y : List String} (h : Copying before x (p ++ [n]) copied found (y :: pending) w) :
    (children ++ found).Perm ((y :: copied) ++ (children ++ pending)) := by
  have hmoved : found.Perm (y :: (copied ++ pending)) := h.parts.trans List.perm_middle
  refine (hmoved.append_left _).trans (List.perm_middle.trans (List.Perm.cons _ ?_))
  exact List.perm_append_comm_assoc _ _ _

include hout

theorem Copying.step {copied found pending : List (List String)} {w : World} {y : List String}
    (h : Copying before x (p ++ [n]) copied found ((x ++ y) :: pending) w) :
    ∃ names w', w.volume.find? (key (.ofNames (p ++ [n] ++ y))) = none ∧
      outcome (c.copyEntry (.ofNames (x ++ y)) (.ofNames (p ++ [n] ++ y))) w =
        (.ok (pairsBelow (x ++ y) (p ++ [n] ++ y) names), w') ∧
      Copying before x (p ++ [n]) ((x ++ y) :: copied)
        (Tree.childrenOf (x ++ y) names ++ found) (Tree.childrenOf (x ++ y) names ++ pending) w' := by
  obtain ⟨t, m, d', ht, hm, hd', hdir'⟩ := h.parent hw hn hd hdir
  obtain ⟨hnew, hfree⟩ := h.free
  obtain ⟨e, he⟩ := (h.survey.has _ (h.survey.pending_found (x ++ y) (by simp))).1
  have hfind : w.volume.find? ⟨x ++ y⟩ = some e := (h.outside _ (hout y)).trans he
  rw [ht] at hfree
  obtain ⟨names, w', hcopy, hv, -, hnodup, hall⟩ :=
    c.copyEntry_ok h.wellFormed hfind hm hfree hd' hdir'
  have hentries : w'.entries = Function.update w.entries (p ++ [n] ++ y)
      (some (copyOf before.volume e)) := by
    have hsame : w.volume.newEntry e.content e.mode = copyOf before.volume e := by
      unfold copyOf newEntry
      rw [h.owner]
    rw [ht, ← entries_put, ← hsame, ← hv]
    rfl
  have hold : ∀ z, ¬ p ++ [n] <+: z → w'.entries z = before.entries z := by
    intro z hz
    rw [hentries, Function.update_of_ne ?_, h.outside z hz]
    rintro rfl
    exact hz (List.prefix_append _ _)
  have hchildren : ∀ k, k ∈ names ↔ Tree.Occupied before.entries (x ++ y ++ [k]) := by
    intro k
    have hbeside : ¬ p ++ [n] <+: x ++ y ++ [k] := by
      rw [List.append_assoc]
      exact hout _
    rw [hall k, Tree.Occupied, hold _ hbeside, Tree.Occupied]
  have hnames := Tree.childrenOf_nodup (x := x ++ y) hnodup
  refine ⟨names, w', by rw [ht, child_key h.wellFormed hm hd']; exact hfree,
    by rw [ht]; exact hcopy, ?_⟩
  exact
    { survey := by
        refine h.survey.expand hnames (fun z hz => ?_) (fun k => ?_) (fun z hz => hz) hnames
          (fun z hz hz' => absurd hz hz')
        · obtain ⟨k, -, rfl⟩ := Tree.mem_childrenOf.1 hz
          exact ⟨k, rfl⟩
        · rw [Tree.mem_childrenOf, ← hchildren k]
          simp
      parts := h.parts_after
      wellFormed := hv ▸ copied_wellFormed h.wellFormed hfind hm hfree hd' hdir'
      owner := by
        rw [hv, ← h.owner]
        rfl
      outside := hold
      inside := by
        intro z
        rw [hentries]
        by_cases hz : z = y
        · subst hz
          have he' : before.entries (x ++ z) = some e := he
          rw [Function.update_self, if_pos (by simp), he']
          rfl
        · rw [Function.update_of_ne (by simpa using hz), h.inside z]
          simp [hz] }

/-- As long as places are pending, not all entries were copied. -/
theorem Copying.finish (bound : Nat) {copied found pending : List (List String)} {w : World}
    (h : Copying before x (p ++ [n]) copied found pending w)
    (hbound : before.volume.entries.length ≤ bound + copied.length) :
    ∃ (order all : List (List String)) (w' : World),
      Copies c (pending.map (pairOf x (p ++ [n]))) w (order.map (pairOf x (p ++ [n]))) w' ∧
      order.length ≤ bound ∧ Copying before x (p ++ [n]) (order.reverse ++ copied) all [] w' := by
  induction bound generalizing copied found pending w with
  | zero =>
    have hfound := places_bounded h.survey.nodup (fun z hz => (h.survey.has z hz).1)
    have hlen := h.parts.length_eq
    rw [List.length_append] at hlen
    obtain rfl : pending = [] := List.length_eq_zero_iff.1 (by omega)
    exact ⟨[], found, w, .done w, Nat.le_refl _, by simpa using h⟩
  | succ bound ih =>
    cases pending with
    | nil => exact ⟨[], found, w, .done w, Nat.zero_le _, by simpa using h⟩
    | cons z pending =>
      obtain ⟨y, rfl⟩ := (h.survey.has z (h.survey.pending_found z (by simp))).2
      obtain ⟨names, w₁, hfree, hcopy, h₁⟩ := h.step (c := c) hw hn hd hdir hout
      obtain ⟨order, all, w₂, hcopies, hlen, h₂⟩ := ih h₁ (by
        rw [List.length_cons]
        omega)
      refine ⟨(x ++ y) :: order, all, w₂, ?_, by simpa using hlen, by simpa using h₂⟩
      rw [List.map_cons, List.map_cons, pairOf_below]
      refine .entry hfree hcopy ?_
      rwa [pairsBelow_reverse, ← List.map_append]

/-- Each entry at or below the source is copied once, and nothing else is changed. -/
theorem copyTree_outside {e : Entry} (he : before.entries x = some e)
    (hfree : before.entries (p ++ [n]) = none) :
    ∃ (order : List (List String)) (w' : World),
      Copies c [(.ofNames x, .ofNames (p ++ [n]))] before (order.map (pairOf x (p ++ [n]))) w' ∧
      outcome (c.copyTree (.ofNames x) (.ofNames (p ++ [n]))) before = (.ok (), w') ∧
      order.Nodup ∧ (∀ z, z ∈ order ↔ x <+: z ∧ Tree.Occupied before.entries z) ∧
      w'.volume.WellFormed ∧
      (∀ y, w'.entries (p ++ [n] ++ y) = (before.entries (x ++ y)).map (copyOf before.volume)) ∧
      ∀ y, ¬ p ++ [n] <+: y → w'.entries y = before.entries y := by
  have hstart : Copying before x (p ++ [n]) [] [x] [x] before := by
    refine ⟨Survey.start ⟨e, he⟩, .refl _, hw, rfl, fun _ _ => rfl, fun y => ?_⟩
    rw [if_neg (by simp)]
    exact hw.nothing_within hfree (List.prefix_append _ _)
  obtain ⟨order, all, w', hcopies, hlen, hend⟩ :=
    hstart.finish (c := c) hw hn hd hdir hout before.volume.entries.length (by simp)
  have hpair : [x].map (pairOf x (p ++ [n])) = [(.ofNames x, .ofNames (p ++ [n]))] := by
    simpa using pairOf_below x (p ++ [n]) []
  rw [hpair] at hcopies
  have hparts := hend.parts
  rw [List.append_nil, List.append_nil] at hparts
  have horder : all.Perm order := hparts.trans order.reverse_perm
  have hmem : ∀ z, z ∈ order ↔ x <+: z ∧ Tree.Occupied before.entries z := by
    intro z
    rw [← horder.mem_iff]
    refine hend.survey.complete (fun u k _ hu => ?_) z
    obtain ⟨a, ha⟩ := hu
    obtain ⟨d, hd, -⟩ := hw.above u k a ha
    exact ⟨d, hd⟩
  refine ⟨order, w', hcopies, ?_, horder.nodup_iff.1 hend.survey.nodup, hmem, hend.wellFormed, ?_,
    hend.outside⟩
  · rw [copyTree_outcome]
    refine copyAll_copies hcopies _ ?_
    rw [List.length_map]
    omega
  · intro y
    rw [hend.inside, List.append_nil]
    by_cases hy : x ++ y ∈ order
    · rw [if_pos (by simpa using hy)]
    · rw [if_neg (by simpa using hy)]
      have hnone : before.entries (x ++ y) = none := by
        by_contra hne
        exact hy ((hmem _).2 ⟨List.prefix_append _ _, Option.ne_none_iff_exists'.1 hne⟩)
      rw [hnone]
      rfl

end Outside

end Client

end VolumeFS
