import VolumeFS.Proofs.Tree.Partial

/-!
# Looking before removing

A recursive delete first looks at all it will remove and only then changes
anything. Where a look leaves the state as it is, the delete goes as it would if
every look gave at all times what it gives at the start, whatever becomes of the
entries in between; and it removes nothing but what was found by looks at the
names in directories that were found.
-/

set_option autoImplicit false

namespace VolumeFS.Tree

variable {σ : Type}

structure Quiet (t : Tree (StateM σ)) (s : σ) : Prop where
  kind : ∀ p, (ending (t.kind p) s).2 = s
  childNames : ∀ p, (ending (t.childNames p) s).2 = s
  reach : (t.reach s).2 = s

def frozen (t : Tree (StateM σ)) (s : σ) : Tree (StateM σ) :=
  { t with kind := fun p => ExceptT.mk fun s' => ((ending (t.kind p) s).1, s') }

/-- The entries found so far and the directories that are kept for later are such as `P` says. -/
structure Finds (t : Tree (StateM σ)) (s : σ) (P : Path → EntryKind → Prop) (top : Path)
    (w : Walk) : Prop where
  top_found : (top, .directory) ∈ w.found
  found : ∀ e ∈ w.found, P e.1 e.2
  pending : ∀ e ∈ w.pending, P e.1 .directory ∧ ending (t.childNames e.1) s = (.ok e.2, s)

theorem ending_quiet {β : Type} {x : ExceptT Fault (StateM σ) β} {s : σ}
    (h : (ending x s).2 = s) :
    (∃ fault, ending x s = (.error fault, s)) ∨ ∃ b, ending x s = (.ok b, s) := by
  rcases hx : ending x s with ⟨fault | b, s'⟩
  · rw [hx] at h
    subst h
    exact .inl ⟨fault, rfl⟩
  · rw [hx] at h
    subst h
    exact .inr ⟨b, rfl⟩

/-- What is removed does not depend on what the looks give. -/
theorem frozen_removeEach (t : Tree (StateM σ)) (s : σ) (p : Path)
    (all : List (Path × EntryKind)) : (t.frozen s).removeEach p all = t.removeEach p all := by
  induction all with
  | nil => rfl
  | cons e all ih =>
    rw [removeEach, removeEach, ih]
    rfl

theorem walk_step {t : Tree (StateM σ)} {s : σ} {directory : Path} {names : List String}
    {found : List (Path × EntryKind)} {pending : List (Path × List String)} {w : Walk}
    (h : ending (t.visit directory names ⟨found, pending⟩) s = (.ok w, s)) (fuel : Nat) :
    ending (t.walk (fuel + 1) ⟨found, (directory, names) :: pending⟩) s =
      ending (t.walk fuel w) s := by
  rw [walk]
  exact ending_bind_ok h _

section Looks

variable {t : Tree (StateM σ)} {s : σ} (h : t.Quiet s)

include h

theorem frozen_kind (p : Path) : ending ((t.frozen s).kind p) s = ending (t.kind p) s :=
  Prod.ext rfl (h.kind p).symm

/-- A visit fails or goes on with more entries, and the frozen tree sees the same. -/
theorem visit_looks {P : Path → EntryKind → Prop} {top directory : Path} {names : List String}
    (hchild : ∀ n ∈ names, ∀ k, ending (t.kind (directory.child n)) s = (.ok (some k), s) →
      P (directory.child n) k) {w : Walk} (hw : Finds t s P top w) :
    ending ((t.frozen s).visit directory names w) s = ending (t.visit directory names w) s ∧
      ((∃ fault, ending (t.visit directory names w) s = (.error fault, s)) ∨
        ∃ w', ending (t.visit directory names w) s = (.ok w', s) ∧ Finds t s P top w') := by
  induction names generalizing w with
  | nil => exact ⟨rfl, .inr ⟨w, rfl, hw⟩⟩
  | cons n names ih =>
    have hrest := fun {w'} => ih (w := w') fun m hm => hchild m (by simp [hm])
    have hfrozen := frozen_kind h (directory.child n)
    rw [visit, visit]
    obtain ⟨fault, hkind⟩ | ⟨k, hkind⟩ := ending_quiet (h.kind (directory.child n))
    · rw [hkind] at hfrozen
      rw [ending_bind_error hkind, ending_bind_error hfrozen]
      exact ⟨rfl, .inl ⟨fault, rfl⟩⟩
    rw [hkind] at hfrozen
    rw [ending_bind_ok hkind, ending_bind_ok hfrozen]
    cases k with
    | none => exact hrest hw
    | some k =>
      have hnew := hchild n (by simp) k hkind
      have hfound : ∀ e ∈ (directory.child n, k) :: w.found, P e.1 e.2 :=
        List.forall_mem_cons.2 ⟨hnew, hw.found⟩
      cases k with
      | file => exact hrest ⟨List.mem_cons_of_mem _ hw.top_found, hfound, hw.pending⟩
      | directory =>
        dsimp only
        obtain ⟨fault, hlist⟩ | ⟨below, hlist⟩ := ending_quiet (h.childNames (directory.child n))
        · rw [ending_bind_error hlist]
          exact ⟨ending_bind_error hlist _, .inl ⟨fault, rfl⟩⟩
        · have hnext : Finds t s P top ⟨(directory.child n, .directory) :: w.found,
              (directory.child n, below) :: w.pending⟩ :=
            ⟨List.mem_cons_of_mem _ hw.top_found, hfound,
              List.forall_mem_cons.2 ⟨⟨hnew, hlist⟩, hw.pending⟩⟩
          rw [ending_bind_ok hlist]
          exact ⟨(ending_bind_ok hlist _).trans (hrest hnext).1, (hrest hnext).2⟩

variable {P : Path → EntryKind → Prop}
  (hP : ∀ q names n k, P q .directory → ending (t.childNames q) s = (.ok names, s) → n ∈ names →
    ending (t.kind (q.child n)) s = (.ok (some k), s) → P (q.child n) k)

include hP

/-- A walk fails or gives entries, and the frozen tree is walked in the same way. -/
theorem walk_looks {top : Path} (fuel : Nat) {w : Walk} (hw : Finds t s P top w) :
    ending ((t.frozen s).walk fuel w) s = ending (t.walk fuel w) s ∧
      ((∃ fault, ending (t.walk fuel w) s = (.error fault, s)) ∨
        ∃ all, ending (t.walk fuel w) s = (.ok all, s) ∧ (top, .directory) ∈ all ∧
          ∀ e ∈ all, P e.1 e.2) := by
  induction fuel generalizing w with
  | zero => exact ⟨rfl, .inl ⟨_, rfl⟩⟩
  | succ fuel ih =>
    rw [walk, walk]
    rcases hpending : w.pending with _ | ⟨⟨directory, names⟩, pending⟩
    · exact ⟨rfl, .inr ⟨w.found, rfl, hw.top_found, hw.found⟩⟩
    · dsimp only
      obtain ⟨hdir, hlist⟩ := hw.pending (directory, names) (by simp [hpending])
      have hrest : Finds t s P top { w with pending } :=
        ⟨hw.top_found, hw.found, fun e he => hw.pending e (by simp [hpending, he])⟩
      obtain ⟨hfrozen, hvisit⟩ := visit_looks h
        (fun n hn k hk => hP directory names n k hdir hlist hn hk) hrest
      obtain ⟨fault, hend⟩ | ⟨w', hend, hw'⟩ := hvisit
      · rw [hend] at hfrozen
        rw [ending_bind_error hend, ending_bind_error hfrozen]
        exact ⟨rfl, .inl ⟨fault, rfl⟩⟩
      · rw [hend] at hfrozen
        rw [ending_bind_ok hend, ending_bind_ok hfrozen]
        exact ih hw'

omit h hP in
/-- A recursive delete of a directory walks it and removes what was found. -/
theorem remove_walks {top : Path} {names : List String}
    (htop : ending (t.kind top) s = (.ok (some .directory), s))
    (hlist : ending (t.childNames top) s = (.ok names, s)) (hreach : (t.reach s).2 = s) :
    ending (t.remove top true) s = ending (t.walk ((t.reach s).1 + 2)
      ⟨[(top, .directory)], [(top, names)]⟩ >>= t.removeEach top) s := by
  have hcount : ending (liftM t.reach : ExceptT Fault (StateM σ) Nat) s =
      (.ok (t.reach s).1, s) :=
    Prod.ext rfl hreach
  have hgo : ¬ (!names.isEmpty && !true) = true := by simp
  unfold remove
  rw [ending_bind_ok htop]
  dsimp only
  rw [ending_bind_ok hlist, if_neg hgo]
  exact ending_bind_ok hcount _

/-- The frozen tree is deleted in the same way. Nothing is removed, or one entry after the other of
those that were found. -/
theorem remove_looks {top : Path} (htop : ending (t.kind top) s = (.ok (some .directory), s))
    (hPtop : P top .directory) :
    ending ((t.frozen s).remove top true) s = ending (t.remove top true) s ∧
      ((∃ fault, ending (t.remove top true) s = (.error fault, s)) ∨
        ∃ all, ending (t.remove top true) s = ending (t.removeEach top all) s ∧
          (top, .directory) ∈ all ∧ ∀ e ∈ all, P e.1 e.2) := by
  have hfrozen := frozen_kind h top
  rw [htop] at hfrozen
  obtain ⟨fault, hlist⟩ | ⟨names, hlist⟩ := ending_quiet (h.childNames top)
  · unfold remove
    rw [ending_bind_ok htop, ending_bind_ok hfrozen]
    dsimp only
    rw [ending_bind_error hlist]
    exact ⟨ending_bind_error hlist _, .inl ⟨fault, rfl⟩⟩
  have hstart : Finds t s P top ⟨[(top, .directory)], [(top, names)]⟩ :=
    ⟨by simp, by simpa using hPtop, by simpa using ⟨hPtop, hlist⟩⟩
  obtain ⟨hsame, hwalk⟩ := walk_looks h hP ((t.reach s).1 + 2) hstart
  have hwalks := remove_walks (t := t.frozen s) hfrozen hlist h.reach
  change ending ((t.frozen s).remove top true) s =
    ending ((t.frozen s).walk ((t.reach s).1 + 2) _ >>= _) s at hwalks
  rw [remove_walks htop hlist h.reach, hwalks]
  obtain ⟨fault, hend⟩ | ⟨all, hend, hall⟩ := hwalk
  · rw [hend] at hsame
    rw [ending_bind_error hend, ending_bind_error hsame]
    exact ⟨rfl, .inl ⟨fault, rfl⟩⟩
  · rw [hend] at hsame
    rw [ending_bind_ok hend, ending_bind_ok hsame, frozen_removeEach]
    exact ⟨rfl, .inr ⟨all, rfl, hall⟩⟩

end Looks

end VolumeFS.Tree
