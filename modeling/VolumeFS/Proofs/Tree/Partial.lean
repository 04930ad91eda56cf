import VolumeFS.Proofs.Tree.Walk

/-!
# Deletes that stop on the way

A recursive delete of a fragile tree removes nothing if the walk cannot look at
some entry. Otherwise it removes entries one by one, each after all that lies
below it, up to the first that cannot be removed; what it reports as undeleted
is exactly what is left at and below the directory.
-/

set_option autoImplicit false

namespace VolumeFS.Tree

variable {σ α : Type}

def without (l : Layout α) (x : List String) : Layout α :=
  fun y => if x <+: y then none else l y

inductive Removals (t : Tree (StateM σ)) : σ → List (List String) → σ → Prop
  | done (s : σ) : Removals t s [] s
  | entry {x : List String} {rest : List (List String)} {kind : EntryKind} {s s₁ s₂ : σ} :
      ending (t.removeEntry (.ofNames x) kind) s = (.ok (), s₁) →
      Removals t s₁ rest s₂ → Removals t s (x :: rest) s₂

/-- When an entry comes before all others that are still there, nothing lies below it. -/
theorem childless_first {l : Layout α} {top x : List String} {all : List (List String)}
    (hordered : (x :: all).Pairwise fun x y => ¬ x <+: y)
    (hall : ∀ y, y ∈ x :: all ↔ top <+: y ∧ Occupied (l) y) (n : String) :
    l (x ++ [n]) = none := by
  by_contra hne
  have htop := ((hall x).1 (by simp)).1
  have hmem := (hall (x ++ [n])).2
    ⟨htop.trans (List.prefix_append _ _), Option.ne_none_iff_exists'.1 hne⟩
  rcases List.mem_cons.1 hmem with he | hmem
  · simp at he
  · exact (List.pairwise_cons.1 hordered).1 _ hmem (List.prefix_append _ _)

/-- How far the delete of all at and below the top came: the entries are removed or left, children
before the directory they lie in. -/
structure Progress (t : Tree (StateM σ)) (layout : σ → Layout α) (top : List String) (s : σ)
    (removed left : List (List String)) (s' : σ) : Prop where
  children_first : (removed ++ left).Pairwise fun x y => ¬ x <+: y
  all : ∀ x, x ∈ removed ++ left ↔ top <+: x ∧ Occupied (layout s) x
  removals : Removals t s removed s'
  gone : ∀ x, layout s' x = if x ∈ removed then none else layout s x

namespace Progress

variable {t : Tree (StateM σ)} {layout : σ → Layout α} {top : List String} {s s' : σ}
  {removed left : List (List String)} (h : Progress t layout top s removed left s')

include h

theorem nodup : (removed ++ left).Nodup := by
  refine h.children_first.imp fun {a b} hab => ?_
  rintro rfl
  exact hab (List.prefix_refl a)

/-- What is left is what is still there. -/
theorem mem_left (x : List String) : x ∈ left ↔ top <+: x ∧ Occupied (layout s') x := by
  have hall := h.all x
  rw [Occupied, h.gone x]
  by_cases hx : x ∈ removed
  · have hnot : x ∉ left := fun hl => List.disjoint_of_nodup_append h.nodup hx hl
    simp [hx, hnot]
  · rw [if_neg hx, ← Occupied]
    simpa [hx] using hall

theorem gone_all (hleft : left = []) : layout s' = without (layout s) top := by
  funext x
  rw [h.gone x, without]
  subst hleft
  have hall := h.all x
  rw [List.append_nil] at hall
  by_cases hx : x ∈ removed
  · rw [if_pos hx, if_pos (hall.1 hx).1]
  · rw [if_neg hx]
    split_ifs with htop
    · by_contra hne
      exact hx (hall.2 ⟨htop, Option.ne_none_iff_exists'.1 hne⟩)
    · rfl

end Progress

section First

variable {t : Tree (StateM σ)} {layout : σ → Layout α} {top x : List String}
  {all : List (List String)} {s s₁ : σ} (hordered : (x :: all).Pairwise fun x y => ¬ x <+: y)
  (hall : ∀ y, y ∈ x :: all ↔ top <+: y ∧ Occupied (layout s) y)
  (hl₁ : layout s₁ = Function.update (layout s) x none)

include hordered

theorem not_first {y : List String} (hy : y ∈ all) : y ≠ x := by
  rintro rfl
  exact (List.pairwise_cons.1 hordered).1 _ hy (List.prefix_refl _)

include hall hl₁

/-- Once the first is removed, the others are all that is there. -/
theorem all_but_first (y : List String) : y ∈ all ↔ top <+: y ∧ Occupied (layout s₁) y := by
  by_cases hy : y = x
  · subst hy
    simp only [Occupied, hl₁, Function.update_self]
    exact ⟨fun hm => absurd rfl (not_first hordered hm), by simp⟩
  · simpa [Occupied, hl₁, Function.update_of_ne hy, hy] using hall y

theorem Progress.after_first {removed left : List (List String)} {s' : σ} {kind : EntryKind}
    (hremove : ending (t.removeEntry (.ofNames x) kind) s = (.ok (), s₁))
    (h : Progress t layout top s₁ removed left s') (hsplit : all = removed ++ left) :
    Progress t layout top s (x :: removed) left s' where
  children_first := by rwa [List.cons_append, ← hsplit]
  all := by rwa [List.cons_append, ← hsplit]
  removals := .entry hremove h.removals
  gone := by
    intro y
    rw [h.gone y, hl₁]
    by_cases hy : y = x
    · subst hy
      simp
    · simp [hy]

end First

namespace Fragile

variable {t : Tree (StateM σ)} {kindOf : α → EntryKind} {layout : σ → Layout α}
  {Sound : σ → Prop} {fails : Failures} {top : List String}
  (h : Fragile t kindOf layout Sound fails top) {s : σ} (hs : Sound s)

include h hs

/-- Entries that come after all that lies below them are removed up to the first that cannot be. -/
theorem removeEach_ending (p : Path) (all : List (List String))
    (hordered : all.Pairwise fun x y => ¬ x <+: y)
    (hall : ∀ x, x ∈ all ↔ top <+: x ∧ Occupied (layout s) x) :
    ∃ removed left s', all = removed ++ left ∧ Progress t layout top s removed left s' ∧ Sound s' ∧
      (∀ x ∈ removed, fails.removal x = none) ∧
      ((left = [] ∧
        ending (t.removeEach p (all.map (mark kindOf (layout s)))) s = (.ok (), s')) ∨
      ∃ failed rest cause, left = failed :: rest ∧ fails.removal failed = some cause ∧
        ending (t.removeEach p (all.map (mark kindOf (layout s)))) s =
          (.error (.partialDelete p.text (Path.ofNames failed).text
            (left.map fun x => (Path.ofNames x).text) cause), s')) := by
  induction all generalizing s with
  | nil =>
    exact ⟨[], [], s, rfl, ⟨.nil, hall, .done s, by simp⟩, hs, by simp, .inl ⟨rfl, rfl⟩⟩
  | cons x all ih =>
    obtain ⟨htop, a, ha⟩ := (hall x).1 (by simp)
    have htried := ending_attempt (t.removeEntry (.ofNames x) (kindOf a)) s
    rw [List.map_cons, mark_found ha, removeEach]
    cases hfail : fails.removal x with
    | some cause =>
      rw [h.removal_fails s x a cause hs htop ha hfail] at htried
      refine ⟨[], x :: all, s, rfl, ⟨hordered, hall, .done s, by simp⟩, hs, by simp,
        .inr ⟨x, all, cause, rfl, hfail, ?_⟩⟩
      have htexts : (all.map (mark kindOf (layout s))).map (·.1.text) =
          all.map fun y => (Path.ofNames y).text := List.map_map
      rw [ending_bind_ok htried, htexts]
      rfl
    | none =>
      have hleaf := childless_first hordered hall
      obtain ⟨s₁, hremove, hs₁, hl₁⟩ := h.removal s x a hs htop ha hleaf hfail
      rw [hremove] at htried
      have hmarks : all.map (mark kindOf (layout s)) = all.map (mark kindOf (layout s₁)) := by
        refine List.map_congr_left fun y hy => (mark_same ?_).symm
        rw [hl₁, Function.update_of_ne (not_first hordered hy)]
      obtain ⟨removed, left, s', hsplit, hprogress, hs', hclean, hend⟩ :=
        ih hs₁ (List.pairwise_cons.1 hordered).2 (all_but_first hordered hall hl₁)
      refine ⟨x :: removed, left, s', by rw [hsplit, List.cons_append],
        hprogress.after_first hordered hall hl₁ hremove hsplit, hs',
        List.forall_mem_cons.2 ⟨hfail, hclean⟩, ?_⟩
      rw [ending_bind_ok htried, hmarks]
      exact hend

section Start

variable {d : α} (hd : layout s top = some d) (hdir : kindOf d = .directory) (recursive : Bool)

include hd hdir

/-- The first look is at the top itself; what follows it is the walk. -/
theorem remove_starts (hlook : fails.look kindOf (layout s) top = none)
    (hallowed : recursive = true ∨ ∀ n, layout s (top ++ [n]) = none) :
    ∃ names bound, Listed kindOf (layout s) top (.ofNames top, names) ∧
      (∀ l : List (List String), l.Nodup →
        (∀ x ∈ l, top <+: x ∧ isDirectory kindOf (layout s) x = true) → l.length ≤ bound) ∧
      ending (t.remove (.ofNames top) recursive) s =
        ending (t.walk (bound + 1) ⟨[(.ofNames top, .directory)], [(.ofNames top, names)]⟩ >>=
          t.removeEach (.ofNames top)) s := by
  have hself : top <+: top := List.prefix_refl _
  have htop : isDirectory kindOf (layout s) top = true := isDirectory_iff.2 ⟨d, hd, hdir⟩
  obtain ⟨hfail, hlist⟩ := Option.or_eq_none_iff.1 hlook
  have hkind := h.kind s top d hs hself hd
  obtain ⟨names, hnames, hnodup, hall⟩ := h.childNames s top d hs hself hd hdir
  obtain ⟨bound, hreach, hbound⟩ := h.reach s hs
  rw [if_pos htop] at hlist
  rw [hfail] at hkind
  rw [hlist] at hnames
  refine ⟨names, bound + 1, ⟨rfl, ⟨d, hd, hdir⟩, hnodup, hall⟩, hbound, ?_⟩
  have hlift : ending (liftM t.reach : ExceptT Fault (StateM σ) Nat) s = (.ok bound, s) := by
    show (Except.ok (t.reach s).1, (t.reach s).2) = _
    rw [hreach]
  have hgo : ¬ (!names.isEmpty && !recursive) = true := by
    rcases hallowed with rfl | hempty
    · simp
    · have hnone : names = [] := by
        refine List.eq_nil_iff_forall_not_mem.2 fun n hn => ?_
        obtain ⟨a, ha⟩ := (hall n).1 hn
        rw [hempty n] at ha
        cases ha
      simp [hnone]
  unfold remove
  rw [ending_bind_ok hkind, hdir]
  dsimp only
  rw [ending_bind_ok hnames, if_neg hgo]
  exact ending_bind_ok hlift _

theorem remove_stops {fault : Fault}
    (hlook : fails.look kindOf (layout s) top = some fault) :
    ending (t.remove (.ofNames top) recursive) s = (.error fault, s) := by
  have hself : top <+: top := List.prefix_refl _
  have hkind := h.kind s top d hs hself hd
  unfold remove
  rcases Failures.look_cases hd hlook with hfail | ⟨hfail, -, hlist⟩
  · rw [hfail] at hkind
    exact ending_bind_error hkind _
  · obtain ⟨names, hnames, -⟩ := h.childNames s top d hs hself hd hdir
    rw [hfail] at hkind
    rw [hlist] at hnames
    rw [ending_bind_ok hkind, hdir]
    exact ending_bind_error hnames _

/-- A delete stops where a look fails, or it removes entries until one cannot be removed. -/
theorem remove_ending (hallowed : recursive = true ∨ ∀ n, layout s (top ++ [n]) = none) :
    (∃ fault, fails.Stop kindOf (layout s) top fault ∧
      ending (t.remove (.ofNames top) recursive) s = (.error fault, s)) ∨
    ((∀ x, top <+: x → Occupied (layout s) x → fails.look kindOf (layout s) x = none) ∧
      ∃ removed left s', Progress t layout top s removed left s' ∧ Sound s' ∧
      (∀ x ∈ removed, fails.removal x = none) ∧
      ((left = [] ∧ ending (t.remove (.ofNames top) recursive) s = (.ok (), s')) ∨
      ∃ failed rest cause, left = failed :: rest ∧ fails.removal failed = some cause ∧
        ending (t.remove (.ofNames top) recursive) s =
          (.error (.partialDelete (Path.ofNames top).text (Path.ofNames failed).text
            (left.map fun x => (Path.ofNames x).text) cause), s'))) := by
  cases hlook : fails.look kindOf (layout s) top with
  | some fault =>
    refine .inl ⟨fault, ⟨top, List.prefix_refl _, ⟨d, hd⟩, hlook, fun y hy hyt hne => ?_⟩,
      h.remove_stops hs hd hdir recursive hlook⟩
    exact absurd (hyt.eq_of_length_le hy.length_le) hne
  | none =>
    have htop : isDirectory kindOf (layout s) top = true := isDirectory_iff.2 ⟨d, hd, hdir⟩
    have hmark : mark kindOf (layout s) top = (.ofNames top, .directory) := by
      rw [mark_found hd, hdir]
    obtain ⟨names, bound, hlisted, hbound, hstart⟩ := h.remove_starts hs hd hdir recursive hlook hallowed
    have hwalk := h.walk_ending hs hbound (bound + 1) (.start ⟨d, hd⟩) (by simpa using hlook)
      (.cons hlisted .nil) (by simp [htop])
    rw [List.map_singleton, hmark] at hwalk
    rw [hstart]
    rcases hwalk with ⟨fault, hstop, hend⟩ | ⟨all, hend, hsurvey, hclean⟩
    · exact .inl ⟨fault, hstop, ending_bind_error hend _⟩
    · have hall := hsurvey.complete fun x n hx hn => by
        obtain ⟨b, hb⟩ := hn
        obtain ⟨e, he, -⟩ := h.above s x n b hs hx hb
        exact ⟨e, he⟩
      obtain ⟨removed, left, s', -, hprogress, hs', hremoved, hresult⟩ :=
        h.removeEach_ending hs (.ofNames top) all hsurvey.ordered hall
      rw [ending_bind_ok hend]
      exact .inr ⟨fun x hx ho => hclean x ((hall x).2 ⟨hx, ho⟩), removed, left, s', hprogress, hs',
        hremoved, hresult⟩

end Start

/-- A recursive delete of a directory is stopped before anything is removed if a look at an entry
fails. Otherwise it removes everything, or reports what it could not remove first and exactly what
is left. -/
theorem remove_exact {d : α} (hd : layout s top = some d) (hdir : kindOf d = .directory) :
    ((∃ x, top <+: x ∧ Occupied (layout s) x ∧ fails.look kindOf (layout s) x ≠ none) →
      ∃ fault, fails.Stop kindOf (layout s) top fault ∧
        ending (t.remove (.ofNames top) true) s = (.error fault, s)) ∧
    ((∀ x, top <+: x → Occupied (layout s) x → fails.look kindOf (layout s) x = none) →
      ∃ removed left s', Progress t layout top s removed left s' ∧
        (∀ x ∈ removed, fails.removal x = none) ∧
        ((∀ x, top <+: x → Occupied (layout s) x → fails.removal x = none) →
          ending (t.remove (.ofNames top) true) s = (.ok (), s') ∧
            layout s' = without (layout s) top) ∧
        ((∃ x, top <+: x ∧ Occupied (layout s) x ∧ fails.removal x ≠ none) →
          ∃ failed cause, left.head? = some failed ∧ fails.removal failed = some cause ∧
            (∀ x, x ∈ left ↔ top <+: x ∧ Occupied (layout s') x) ∧
            (left.map fun x => (Path.ofNames x).text).Nodup ∧
            ending (t.remove (.ofNames top) true) s =
              (.error (.partialDelete (Path.ofNames top).text (Path.ofNames failed).text
                (left.map fun x => (Path.ofNames x).text) cause), s'))) := by
  rcases h.remove_ending hs hd hdir true (.inl rfl) with
    ⟨fault, hstop, hend⟩ | ⟨hclean, removed, left, s', hprogress, -, hremoved, hresult⟩
  · refine ⟨fun _ => ⟨fault, hstop, hend⟩, fun hclean => ?_⟩
    obtain ⟨x, hx, ho, hlook, -⟩ := hstop
    rw [hclean x hx ho] at hlook
    cases hlook
  · refine ⟨fun hbroken => ?_, fun _ => ⟨removed, left, s', hprogress, hremoved, ?_, ?_⟩⟩
    · obtain ⟨x, hx, ho, hlook⟩ := hbroken
      exact absurd (hclean x hx ho) hlook
    · intro hsound
      rcases hresult with ⟨hleft, hend⟩ | ⟨failed, rest, cause, hleft, hfail, -⟩
      · exact ⟨hend, hprogress.gone_all hleft⟩
      · have hmem : failed ∈ removed ++ left := by simp [hleft]
        have hfound := (hprogress.all failed).1 hmem
        rw [hsound failed hfound.1 hfound.2] at hfail
        cases hfail
    · rintro ⟨x, hx, ho, hfail⟩
      rcases hresult with ⟨hleft, -⟩ | ⟨failed, rest, cause, hleft, hcause, hend⟩
      · have hmem := (hprogress.all x).2 ⟨hx, ho⟩
        rw [hleft, List.append_nil] at hmem
        exact absurd (hremoved x hmem) hfail
      · refine ⟨failed, cause, by rw [hleft]; rfl, hcause, hprogress.mem_left, ?_, hend⟩
        have hnames : ∀ y ∈ left, ∀ n ∈ y, IsName n := by
          intro y hy
          obtain ⟨htop, a, ha⟩ := (hprogress.all y).1 (List.mem_append_right _ hy)
          exact h.names s y a hs htop ha
        exact (List.nodup_append.1 hprogress.nodup).2.1.map_on fun y hy z hz he =>
          Path.text_injective (hnames y hy) (hnames z hz) he

end Fragile

end VolumeFS.Tree
