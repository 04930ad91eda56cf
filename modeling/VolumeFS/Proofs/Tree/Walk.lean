import Mathlib.Data.List.Forall2
import VolumeFS.Proofs.Tree.Serves

/-!
# Walking a tree whose calls may fail

A tree is fragile at and below a place if each call acts there on the layout of
the state, except that some calls fail, always the same ones, and then change
nothing. A walk of such a tree surveys what lies at and below the place unless
a look at one of the entries fails. It ends, since every pending place is a
directory of its own, and gives each entry once and after those above it.
-/

set_option autoImplicit false

namespace VolumeFS.Tree

variable {σ α : Type}

def Occupied (l : Layout α) (x : List String) : Prop := ∃ a, l x = some a

section Marks

variable (kindOf : α → EntryKind) (l : Layout α)

def mark (x : List String) : Path × EntryKind :=
  (.ofNames x, if isDirectory kindOf l x then .directory else .file)

structure Listed (x : List String) (entry : Path × List String) : Prop where
  path : entry.1 = .ofNames x
  directory : ∃ d, l x = some d ∧ kindOf d = .directory
  nodup : entry.2.Nodup
  names : ∀ n, n ∈ entry.2 ↔ Occupied l (x ++ [n])

variable {kindOf l}

theorem mark_found {x : List String} {a : α} (hx : l x = some a) :
    mark kindOf l x = (.ofNames x, kindOf a) := by
  unfold mark isDirectory
  rw [hx]
  cases ha : kindOf a <;> simp [ha]

theorem mark_same {l' : Layout α} {x : List String} (h : l' x = l x) :
    mark kindOf l' x = mark kindOf l x := by
  unfold mark isDirectory
  rw [h]

end Marks

def childrenOf (x : List String) (names : List String) : List (List String) :=
  (names.map fun n => x ++ [n]).reverse

theorem childrenOf_cons (x : List String) (n : String) (names : List String) :
    childrenOf x (n :: names) = childrenOf x names ++ [x ++ [n]] := by
  simp [childrenOf]

theorem mem_childrenOf {x : List String} {names : List String} {y : List String} :
    y ∈ childrenOf x names ↔ ∃ n ∈ names, y = x ++ [n] := by
  simp [childrenOf, eq_comm]

theorem childrenOf_nodup {x : List String} {names : List String} (h : names.Nodup) :
    (childrenOf x names).Nodup := by
  refine List.nodup_reverse.2 (h.map ?_)
  intro a b hab
  simpa using hab

structure Failures where
  kind : List String → Option Fault
  names : List String → Option Fault
  removal : List String → Option Fault

namespace Failures

def none : Failures := ⟨fun _ => .none, fun _ => .none, fun _ => .none⟩

/-- What a call ends with that would give `b` if it did not fail. -/
def ends {β : Type} (fault? : Option Fault) (b : β) : Except Fault β :=
  match fault? with
  | some fault => .error fault
  | .none => .ok b

/-- How a look at a place fails: what it is cannot be told, or it is a directory and the names in
it cannot. -/
def look (fails : Failures) (kindOf : α → EntryKind) (l : Layout α) (x : List String) :
    Option Fault :=
  (fails.kind x).or (if isDirectory kindOf l x then fails.names x else .none)

/-- The look at an entry at or below the top fails, and at no entry on the way down to it. -/
def Stop (fails : Failures) (kindOf : α → EntryKind) (l : Layout α) (top : List String)
    (fault : Fault) : Prop :=
  ∃ x, top <+: x ∧ Occupied l x ∧ fails.look kindOf l x = some fault ∧
    ∀ y, top <+: y → y <+: x → y ≠ x → fails.look kindOf l y = .none

theorem none_look (kindOf : α → EntryKind) (l : Layout α) (x : List String) :
    Failures.none.look kindOf l x = .none := by
  unfold look
  split_ifs <;> rfl

theorem look_cases {fails : Failures} {kindOf : α → EntryKind} {l : Layout α} {x : List String}
    {a : α} {fault : Fault} (hx : l x = some a) (h : fails.look kindOf l x = some fault) :
    fails.kind x = some fault ∨
      (fails.kind x = .none ∧ kindOf a = .directory ∧ fails.names x = some fault) := by
  unfold look at h
  cases hkind : fails.kind x with
  | some fault' =>
    rw [hkind] at h
    exact .inl h
  | none =>
    rw [hkind, Option.none_or] at h
    split_ifs at h with hdir
    obtain ⟨d, hd, hk⟩ := isDirectory_iff.1 hdir
    rw [hx] at hd
    cases hd
    exact .inr ⟨rfl, hk, h⟩

end Failures

/-- At and below the top the steps of the tree act on the layout of the state, unless they fail.
`Sound` holds in all states that are met. -/
structure Fragile (t : Tree (StateM σ)) (kindOf : α → EntryKind) (layout : σ → Layout α)
    (Sound : σ → Prop) (fails : Failures) (top : List String) : Prop where
  names : ∀ s x a, Sound s → top <+: x → layout s x = some a → ∀ n ∈ x, IsName n
  above : ∀ s x n a, Sound s → top <+: x → layout s (x ++ [n]) = some a →
    ∃ d, layout s x = some d ∧ kindOf d = .directory
  kind : ∀ s x a, Sound s → top <+: x → layout s x = some a →
    ending (t.kind (.ofNames x)) s = (Failures.ends (fails.kind x) (some (kindOf a)), s)
  childNames : ∀ s x d, Sound s → top <+: x → layout s x = some d → kindOf d = .directory →
    ∃ names, ending (t.childNames (.ofNames x)) s = (Failures.ends (fails.names x) names, s) ∧
      names.Nodup ∧ ∀ n, n ∈ names ↔ Occupied (layout s) (x ++ [n])
  removal_fails : ∀ s x a fault, Sound s → top <+: x → layout s x = some a →
    fails.removal x = some fault →
    ending (t.removeEntry (.ofNames x) (kindOf a)) s = (.error fault, s)
  removal : ∀ s x a, Sound s → top <+: x → layout s x = some a →
    (∀ n, layout s (x ++ [n]) = none) → fails.removal x = none →
    ∃ s', ending (t.removeEntry (.ofNames x) (kindOf a)) s = (.ok (), s') ∧ Sound s' ∧
      layout s' = Function.update (layout s) x none
  reach : ∀ s, Sound s → ∃ n, t.reach s = (n, s) ∧ ∀ l : List (List String), l.Nodup →
    (∀ x ∈ l, top <+: x ∧ isDirectory kindOf (layout s) x = true) → l.length ≤ n + 1

namespace Fragile

variable {t : Tree (StateM σ)} {kindOf : α → EntryKind} {layout : σ → Layout α}
  {Sound : σ → Prop} {fails : Failures} {top : List String}
  (h : Fragile t kindOf layout Sound fails top) {s : σ} (hs : Sound s)

include h hs

section Child

variable {x : List String} (hx : top <+: x) {n : String} {a : α}
  (ha : layout s (x ++ [n]) = some a) (names : List String)
  (found : List (Path × EntryKind)) (pending : List (Path × List String))

include hx ha

/-- A look at a child that fails ends the visit. -/
theorem visit_stops {fault : Fault}
    (hlook : fails.look kindOf (layout s) (x ++ [n]) = some fault) :
    ending (t.visit (.ofNames x) (n :: names) ⟨found, pending⟩) s = (.error fault, s) := by
  have hbelow : top <+: x ++ [n] := hx.trans (List.prefix_append _ _)
  have hname : IsName n := h.names s _ a hs hbelow ha n (by simp)
  have hkind := h.kind s _ a hs hbelow ha
  rw [visit]
  dsimp only
  rw [Path.ofNames_child x hname]
  rcases Failures.look_cases ha hlook with hfail | ⟨hfail, hk, hlist⟩
  · rw [hfail] at hkind
    exact ending_bind_error hkind _
  · obtain ⟨below, hnames, -⟩ := h.childNames s _ a hs hbelow ha hk
    rw [hfail] at hkind
    rw [hlist] at hnames
    rw [ending_bind_ok hkind, hk]
    exact ending_bind_error hnames _

/-- After any other look the child is noted, and kept with its names if it is a directory. -/
theorem visit_goes_on (hlook : fails.look kindOf (layout s) (x ++ [n]) = none) :
    ∃ new, ending (t.visit (.ofNames x) (n :: names) ⟨found, pending⟩) s =
        ending (t.visit (.ofNames x) names
          ⟨mark kindOf (layout s) (x ++ [n]) :: found, new ++ pending⟩) s ∧
      List.Forall₂ (Listed kindOf (layout s))
        ([x ++ [n]].filter (isDirectory kindOf (layout s))) new := by
  have hbelow : top <+: x ++ [n] := hx.trans (List.prefix_append _ _)
  have hname : IsName n := h.names s _ a hs hbelow ha n (by simp)
  obtain ⟨hfail, hlist⟩ := Option.or_eq_none_iff.1 hlook
  have hkind := h.kind s _ a hs hbelow ha
  rw [hfail] at hkind
  rw [visit, mark_found ha]
  dsimp only
  rw [Path.ofNames_child x hname, ending_bind_ok hkind]
  cases hk : kindOf a with
  | directory =>
    have hdir : isDirectory kindOf (layout s) (x ++ [n]) = true := isDirectory_iff.2 ⟨a, ha, hk⟩
    obtain ⟨below, hnames, hnodup, hall⟩ := h.childNames s _ a hs hbelow ha hk
    rw [if_pos hdir] at hlist
    rw [hlist] at hnames
    refine ⟨[(.ofNames (x ++ [n]), below)], ?_, ?_⟩
    · exact ending_bind_ok hnames _
    · rw [List.filter_cons_of_pos hdir]
      exact .cons ⟨rfl, ⟨a, ha, hk⟩, hnodup, hall⟩ .nil
  | file =>
    have hfile : ¬ isDirectory kindOf (layout s) (x ++ [n]) = true := by
      simp [isDirectory, ha, hk]
    refine ⟨[], rfl, ?_⟩
    rw [List.filter_cons_of_neg hfile]
    exact .nil

end Child

/-- Every child is noted, and every child that is a directory is kept with its names, unless the
look at one of them fails. -/
theorem visit_ending {x : List String} (hx : top <+: x) (names : List String)
    (hnames : ∀ n ∈ names, Occupied (layout s) (x ++ [n])) (found : List (Path × EntryKind))
    (pending : List (Path × List String)) :
    (∃ n ∈ names, ∃ fault, fails.look kindOf (layout s) (x ++ [n]) = some fault ∧
      ending (t.visit (.ofNames x) names ⟨found, pending⟩) s = (.error fault, s)) ∨
    ((∀ n ∈ names, fails.look kindOf (layout s) (x ++ [n]) = none) ∧
      ∃ new, ending (t.visit (.ofNames x) names ⟨found, pending⟩) s =
        (.ok ⟨(childrenOf x names).map (mark kindOf (layout s)) ++ found, new ++ pending⟩, s) ∧
      List.Forall₂ (Listed kindOf (layout s))
        ((childrenOf x names).filter (isDirectory kindOf (layout s))) new) := by
  induction names generalizing found pending with
  | nil => exact .inr ⟨by simp, [], rfl, .nil⟩
  | cons n names ih =>
    obtain ⟨a, ha⟩ := hnames n (by simp)
    cases hlook : fails.look kindOf (layout s) (x ++ [n]) with
    | some fault =>
      exact .inl ⟨n, by simp, fault, hlook, h.visit_stops hs hx ha names found pending hlook⟩
    | none =>
      obtain ⟨child, hend, hchild⟩ := h.visit_goes_on hs hx ha names found pending hlook
      rw [hend, childrenOf_cons, List.map_append, List.filter_append]
      rcases ih (fun m hm => hnames m (by simp [hm])) (mark kindOf (layout s) (x ++ [n]) :: found)
        (child ++ pending) with ⟨m, hm, fault, hfault, hstop⟩ | ⟨hclean, new, hrest, hlisted⟩
      · exact .inl ⟨m, by simp [hm], fault, hfault, hstop⟩
      · refine .inr ⟨List.forall_mem_cons.2 ⟨hlook, hclean⟩, new ++ child, ?_, ?_⟩
        · rw [hrest]
          simp
        · exact List.rel_append hlisted hchild

/-- The fuel that is left covers the pending directories and those not yet found. -/
theorem walk_ending {bound : Nat}
    (hbound : ∀ l : List (List String), l.Nodup →
      (∀ x ∈ l, top <+: x ∧ isDirectory kindOf (layout s) x = true) → l.length ≤ bound)
    (fuel : Nat) {found pending : List (List String)} {entries : List (Path × List String)}
    (hsurvey : Survey (Occupied (layout s)) top found pending)
    (hclean : ∀ x ∈ found, fails.look kindOf (layout s) x = none)
    (hpending : List.Forall₂ (Listed kindOf (layout s)) pending entries)
    (hfuel : bound + pending.length <
      fuel + (found.filter (isDirectory kindOf (layout s))).length) :
    (∃ fault, fails.Stop kindOf (layout s) top fault ∧
      ending (t.walk fuel ⟨found.map (mark kindOf (layout s)), entries⟩) s = (.error fault, s)) ∨
    (∃ all, ending (t.walk fuel ⟨found.map (mark kindOf (layout s)), entries⟩) s =
        (.ok (all.map (mark kindOf (layout s))), s) ∧
      Survey (Occupied (layout s)) top all [] ∧
      ∀ x ∈ all, fails.look kindOf (layout s) x = none) := by
  induction fuel generalizing found pending entries with
  | zero =>
    have hdirs := hbound _ (hsurvey.nodup.filter (isDirectory kindOf (layout s))) fun x hx =>
      ⟨(hsurvey.has x (List.mem_filter.1 hx).1).2, (List.mem_filter.1 hx).2⟩
    omega
  | succ fuel ih =>
    cases hpending with
    | nil => exact .inr ⟨found, rfl, hsurvey, hclean⟩
    | @cons x entry pending entries hlisted hpending =>
      obtain ⟨directory, names⟩ := entry
      obtain ⟨rfl, -, hnodup, hall⟩ := hlisted
      have hx := hsurvey.pending_found x (by simp)
      have htop := (hsurvey.has x hx).2
      rw [walk]
      dsimp only
      rcases h.visit_ending hs htop names (fun n hn => (hall n).1 hn)
        (found.map (mark kindOf (layout s))) entries with
        ⟨n, hn, fault, hfault, hend⟩ | ⟨hchildren, new, hend, hnew⟩
      · refine .inl ⟨fault, ⟨x ++ [n], htop.trans (List.prefix_append _ _), (hall n).1 hn, hfault,
          fun y hy hyx hne => ?_⟩, ending_bind_error hend _⟩
        -- what is above the child is above or at `x`, which was found
        obtain ⟨z, rfl⟩ := (List.prefix_concat_iff.1 hyx).resolve_left hne
        exact hclean y (hsurvey.between hx hy)
      · have hs' := hsurvey.expand (childrenOf_nodup hnodup)
          (fun y hy => by
            obtain ⟨n, -, rfl⟩ := mem_childrenOf.1 hy
            exact ⟨n, rfl⟩)
          (fun n => by
            rw [mem_childrenOf, ← hall n]
            simp)
          (fun y hy => (List.mem_filter.1 hy).1)
          ((childrenOf_nodup hnodup).filter (isDirectory kindOf (layout s)))
          (fun y hy hny n hn => by
            obtain ⟨a, ha⟩ := hn
            obtain ⟨k, -, rfl⟩ := mem_childrenOf.1 hy
            refine hny (List.mem_filter.2 ⟨hy, isDirectory_iff.2 (h.above s _ n a hs ?_ ha)⟩)
            exact htop.trans (List.prefix_append _ _))
        rw [ending_bind_ok hend, ← List.map_append]
        refine ih hs' ?_ (List.rel_append hnew hpending) ?_
        · intro y hy
          rcases List.mem_append.1 hy with hy | hy
          · obtain ⟨n, hn, rfl⟩ := mem_childrenOf.1 hy
            exact hchildren n hn
          · exact hclean y hy
        · simp only [List.length_append, List.length_cons, List.filter_append] at hfuel ⊢
          omega

end Fragile

end VolumeFS.Tree
