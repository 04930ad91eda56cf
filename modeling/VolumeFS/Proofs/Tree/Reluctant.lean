import Mathlib.Algebra.GroupWithZero.Nat
import VolumeFS.Proofs.Path.Normal
import VolumeFS.Proofs.Tree.Layout
import VolumeFS.Proofs.Tree.Recorded

/-!
# Making directories that fail at first

A tree is reluctant if attempts to make a directory fail there as a script says;
at one of them it may also appear, because somebody else made it. A directory
that is missing is tried again, after a wait that grows, until it is there or
was tried as often as is allowed. What a script and that number lead to is told
by `tried`, and the attempts at one directory are shown to end like that.
-/

set_option autoImplicit false

namespace VolumeFS

namespace Path

def withNames (p : Path) (x : List String) : Path := { p with segments := x }

structure LeadsDown (p : Path) (x : List String) : Prop where
  absolute : p.absolute = true
  segments : p.segments = x
  names : ∀ n ∈ x, IsName n

theorem lineage_descent (p : Path) :
    p.lineage = (descent [] p.segments).map fun q => p.withNames q.segments := by
  rw [descent_range, List.map_map]
  rfl

theorem LeadsDown.upper {p : Path} {x y : List String} (h : p.LeadsDown (x ++ y)) :
    (p.withNames x).LeadsDown x :=
  ⟨h.absolute, rfl, fun n hn => h.names n (List.mem_append_left y hn)⟩

end Path

namespace Tree

/-- An attempt to make a directory that fails: its fault, and whether the directory is there all the
same, because somebody else made it. -/
structure Refusal where
  fault : Fault
  appears : Bool

section Tried

/-- How often a directory is tried that fails like this, if it is tried again so many times at most,
and the fault if it is not there then. -/
def tried : List Refusal → Nat → Nat × Option Fault
  | [], _ => (1, none)
  | r :: _, 0 => (1, if r.appears then none else some r.fault)
  | r :: script, left + 1 =>
    if r.appears then (1, none) else ((tried script left).1 + 1, (tried script left).2)

theorem tried_count (script : List Refusal) (left : Nat) :
    1 ≤ (tried script left).1 ∧ (tried script left).1 ≤ left + 1 := by
  fun_induction tried script left with
  | case1 left => simp
  | case2 r script => simp
  | case3 r script left happears => simp
  | case4 r script left happears ih => omega

/-- The directory is there if the script is over by the last attempt or it has appeared by then. -/
theorem tried_none (script : List Refusal) (left : Nat) : (tried script left).2 = none ↔
    script.length ≤ left ∨ ∃ i r, i ≤ left ∧ script[i]? = some r ∧ r.appears = true := by
  fun_induction tried script left with
  | case1 left => simp
  | case2 r script => simp
  | case3 r script left happears =>
    simp only [true_iff]
    exact .inr ⟨0, r, Nat.zero_le _, rfl, happears⟩
  | case4 r script left happears ih =>
    rw [ih, List.length_cons, Nat.add_le_add_iff_right]
    constructor
    · rintro (hlength | ⟨i, r', hi, hr', happears'⟩)
      · exact .inl hlength
      · exact .inr ⟨i + 1, r', Nat.succ_le_succ hi, hr', happears'⟩
    · rintro (hlength | ⟨i, r', hi, hr', happears'⟩)
      · exact .inl hlength
      · cases i with
        | zero =>
          cases hr'
          exact absurd happears' happears
        | succ i => exact .inr ⟨i, r', Nat.le_of_succ_le_succ hi, hr', happears'⟩

theorem tried_retries (script : List Refusal) : (tried script retries).2 = none ↔
    script.length ≤ 4 ∨ ∃ i r, i < 5 ∧ script[i]? = some r ∧ r.appears = true := by
  simp only [tried_none, retries, Nat.lt_succ_iff]

/-- What appears at the second attempt is not tried again. -/
example : tried [⟨.backend "busy", false⟩, ⟨.backend "busy", true⟩, ⟨.backend "busy", false⟩] 4 =
    (2, none) := rfl

/-- The fault is that of the last attempt. -/
theorem tried_some {script : List Refusal} {left : Nat} {fault : Fault}
    (h : (tried script left).2 = some fault) :
    ∃ r, script[left]? = some r ∧ r.appears = false ∧ fault = r.fault := by
  fun_induction tried script left with
  | case1 left => cases h
  | case2 r script =>
    cases happears : r.appears with
    | true => simp [happears] at h
    | false =>
      simp only [happears] at h
      cases h
      exact ⟨r, rfl, happears, rfl⟩
  | case3 r script left happears => cases h
  | case4 r script left happears ih => exact ih h

theorem tried_first {script : List Refusal} (h : (tried script 0).2 = none) (left : Nat) :
    tried script left = (1, none) := by
  cases script with
  | nil => rfl
  | cons r rest =>
    have happears : r.appears = true := by
      by_contra happears
      simp [tried, happears] at h
    cases left <;> simp [tried, happears]

theorem tried_again {script : List Refusal} {fault : Fault} (h : (tried script 0).2 = some fault)
    (left : Nat) : ∃ r rest, script = r :: rest ∧
      tried script (left + 1) = ((tried rest left).1 + 1, (tried rest left).2) := by
  cases script with
  | nil => cases h
  | cons r rest =>
    have happears : ¬ r.appears = true := by
      intro happears
      simp [tried, happears] at h
    exact ⟨r, rest, rfl, if_neg happears⟩

end Tried

section Record

variable {σ : Type}

def trying (p : Path) : Nat → List σ → List (Step σ)
  | _, [] => []
  | _, [s] => [.attempt s p]
  | attempts, s :: states =>
    .attempt s p :: .wait (delay attempts) :: trying p (attempts + 1) states

theorem trying_again (p : Path) (attempts : Nat) (s : σ) {states : List σ} (h : states ≠ []) :
    trying p attempts (s :: states) =
      [.attempt s p, .wait (delay attempts)] ++ trying p (attempts + 1) states := by
  cases states with
  | nil => exact absurd rfl h
  | cons s' states => rfl

structure Level (σ : Type) where
  place : List String
  states : List σ

def Level.steps (p : Path) (l : Level σ) : List (Step σ) :=
  trying (p.withNames l.place) 0 l.states

theorem waited_trying (p : Path) (attempts : Nat) (states : List σ) :
    waited (trying p attempts states) =
      ((List.range (states.length - 1)).map fun i => delay (attempts + i)).sum := by
  fun_induction trying p attempts states with
  | case1 attempts => rfl
  | case2 attempts s => rfl
  | case3 attempts s states hmore ih =>
    have hlength : (s :: states).length - 1 = states.length - 1 + 1 := by
      have := List.length_pos_iff.mpr hmore
      simp only [List.length_cons]
      omega
    rw [waited, waited, ih, hlength, List.range_succ_eq_map]
    simp [Function.comp_def, Nat.add_assoc, Nat.add_comm 1]

end Record

section Laws

variable {σ : Type} (layout : σ → Layout EntryKind) (script : σ → List String → List Refusal)
  (Sound : σ → Prop)

/-- Nothing but this place was changed, which is a directory now if it was made. -/
structure Settles (s s' : σ) (x : List String) (made : Bool) : Prop where
  sound : Sound s'
  layout : layout s' =
    if made then Function.update (layout s) x (some .directory) else layout s
  script : ∀ y, y ≠ x → script s' y = script s y

/-- To look into a directory never fails, and to make one in it fails as the script says. -/
structure Reluctant (t : Tree (StateM σ)) : Prop where
  root : ∀ s, Sound s → layout s [] = some .directory
  kind : ∀ s p way n, Sound s → p.LeadsDown (way ++ [n]) → layout s way = some .directory →
    ending (t.kind p) s = (.ok (layout s (way ++ [n])), s)
  makes : ∀ s p way n, Sound s → p.LeadsDown (way ++ [n]) → layout s way = some .directory →
    layout s (way ++ [n]) = none → script s (way ++ [n]) = [] →
    ∃ s', ending (t.makeDirectory p) s = (.ok (), s') ∧
      Settles layout script Sound s s' (way ++ [n]) true
  refuses : ∀ s p way n r rest, Sound s → p.LeadsDown (way ++ [n]) →
    layout s way = some .directory → layout s (way ++ [n]) = none →
    script s (way ++ [n]) = r :: rest →
    ∃ s', ending (t.makeDirectory p) s = (.error r.fault, s') ∧
      Settles layout script Sound s s' (way ++ [n]) r.appears ∧ script s' (way ++ [n]) = rest
  pause : ∀ s time, Sound s → ∃ s', (t.pause time).run s = ((), s') ∧ Sound s' ∧
    layout s' = layout s ∧ script s' = script s

end Laws

section Steps

variable {σ : Type} {t : Tree (StateM σ)} {s s' : σ} {record : List (Step σ)}

theorem recorded_kind {p : Path} {found : Option EntryKind}
    (h : ending (t.kind p) s = (.ok found, s)) :
    ending (t.recorded.kind p) (s, record) = (.ok found, s, record) := by
  show ((ending (t.kind p) s).1, (ending (t.kind p) s).2, record) = _
  rw [h]

theorem recorded_make {p : Path} {made : Except Fault Unit}
    (h : ending (t.makeDirectory p) s = (made, s')) :
    ending (t.recorded.makeDirectory p) (s, record) = (made, s', record ++ [.attempt s p]) := by
  show ((ending (t.makeDirectory p) s).1, (ending (t.makeDirectory p) s).2,
    record ++ [.attempt s p]) = _
  rw [h]

theorem recorded_pause {time : Nat} (h : (t.pause time).run s = ((), s')) :
    ending (liftM (t.recorded.pause time) : ExceptT Fault _ Unit) (s, record) =
      (.ok (), s', record ++ [.wait time]) := by
  show (Except.ok (), ((t.pause time).run s).2, record ++ [.wait time]) = _
  rw [h]

/-- How making a directory ends, given the fault if it is not there. -/
def verdict : Option Fault → Except Fault Unit
  | none => .ok ()
  | some fault => .error fault

end Steps

section Settles

variable {σ : Type} {layout : σ → Layout EntryKind} {script : σ → List String → List Refusal}
  {Sound : σ → Prop} {s s' : σ} {x : List String} {made : Bool}
  (h : Settles layout script Sound s s' x made)

include h

theorem Settles.elsewhere {y : List String} (hy : y ≠ x) : layout s' y = layout s y := by
  rw [h.layout]
  cases made with
  | true => exact Function.update_of_ne hy _ _
  | false => rfl

theorem Settles.here : layout s' x = if made then some .directory else layout s x := by
  rw [h.layout]
  cases made with
  | true => exact Function.update_self _ _ _
  | false => rfl

theorem Settles.trans {s₂ : σ} {made₂ : Bool} (hfirst : made = false)
    (h₂ : Settles layout script Sound s' s₂ x made₂) :
    Settles layout script Sound s s₂ x made₂ where
  sound := h₂.sound
  layout := by
    rw [h₂.layout, h.layout, hfirst]
    rfl
  script := fun y hy => (h₂.script y hy).trans (h.script y hy)

end Settles

namespace Reluctant

variable {σ : Type} {t : Tree (StateM σ)} {layout : σ → Layout EntryKind}
  {script : σ → List String → List Refusal} {Sound : σ → Prop}
  (h : Reluctant layout script Sound t)

section Level

variable {p : Path} {way : List String} {n : String} (hp : p.LeadsDown (way ++ [n]))

include h hp

/-- One attempt at a directory that is missing. -/
theorem makeOnce_ending {s : σ} (hs : Sound s) (hway : layout s way = some .directory)
    (hnone : layout s (way ++ [n]) = none) (record : List (Step σ)) :
    ∃ s', ending (t.recorded.makeOnce p) (s, record) =
        (.ok (tried (script s (way ++ [n])) 0).2, s', record ++ [.attempt s p]) ∧
      Settles layout script Sound s s' (way ++ [n]) (tried (script s (way ++ [n])) 0).2.isNone ∧
      ∀ r rest, script s (way ++ [n]) = r :: rest → script s' (way ++ [n]) = rest := by
  unfold makeOnce
  cases hscript : script s (way ++ [n]) with
  | nil =>
    obtain ⟨s', hmake, hsettles⟩ := h.makes s p way n hs hp hway hnone hscript
    refine ⟨s', ?_, hsettles, by simp⟩
    rw [ending_bind_ok (ending_attempt _ _), recorded_make hmake]
    rfl
  | cons r rest =>
    obtain ⟨s', hmake, hsettles, hrest⟩ := h.refuses s p way n r rest hs hp hway hnone hscript
    have hfault : (tried (r :: rest) 0).2 = if r.appears then none else some r.fault := rfl
    have hmade : (tried (r :: rest) 0).2.isNone = r.appears := by
      rw [hfault]
      cases r.appears <;> rfl
    have hway' : layout s' way = some .directory := by
      rw [hsettles.elsewhere (by simp), hway]
    have hfound := h.kind s' p way n hsettles.sound hp hway'
    refine ⟨s', ?_, by rwa [hmade], by rintro _ _ ⟨⟩; exact hrest⟩
    rw [ending_bind_ok (ending_attempt _ _), recorded_make hmake]
    dsimp only
    rw [ending_bind_ok (recorded_kind hfound), hsettles.here, hnone, hfault]
    cases r.appears <;> rfl

/-- Attempts at a directory that is missing, until it is there or may not be tried again. -/
theorem makeTrying_ending (left attempts : Nat) {s : σ} (hs : Sound s)
    (hway : layout s way = some .directory) (hnone : layout s (way ++ [n]) = none)
    (record : List (Step σ)) :
    ∃ s' states,
      ending (t.recorded.makeTrying p attempts left) (s, record) =
        (verdict (tried (script s (way ++ [n])) left).2, s',
          record ++ trying p attempts states) ∧
      Settles layout script Sound s s' (way ++ [n]) (tried (script s (way ++ [n])) left).2.isNone ∧
      states.length = (tried (script s (way ++ [n])) left).1 ∧
      ∀ b ∈ states, layout b way = some .directory ∧ layout b (way ++ [n]) = none := by
  induction left generalizing attempts s record with
  | zero =>
    obtain ⟨s', honce, hsettles, -⟩ := h.makeOnce_ending hp hs hway hnone record
    refine ⟨s', [s], ?_, hsettles, ?_, by simpa using ⟨hway, hnone⟩⟩
    · rw [makeTrying, ending_bind_ok honce]
      cases (tried (script s (way ++ [n])) 0).2 <;> rfl
    · have := tried_count (script s (way ++ [n])) 0
      simp only [List.length_singleton]
      omega
  | succ left ih =>
    obtain ⟨s₁, honce, hsettles, hrest⟩ := h.makeOnce_ending hp hs hway hnone record
    cases hfirst : (tried (script s (way ++ [n])) 0).2 with
    | none =>
      rw [hfirst] at honce hsettles
      rw [tried_first hfirst]
      refine ⟨s₁, [s], ?_, hsettles, rfl, by simpa using ⟨hway, hnone⟩⟩
      rw [makeTrying, ending_bind_ok honce]
      rfl
    | some fault =>
      obtain ⟨r, rest, hscript, hagain⟩ := tried_again hfirst left
      rw [hfirst] at honce hsettles
      obtain ⟨s₂, hpause, hs₂, hlayout, hkept⟩ := h.pause s₁ (delay attempts) hsettles.sound
      have hwait : Settles layout script Sound s s₂ (way ++ [n]) false :=
        hsettles.trans rfl ⟨hs₂, hlayout, fun y _ => by rw [hkept]⟩
      have hrest₂ : script s₂ (way ++ [n]) = rest := by rw [hkept, hrest r rest hscript]
      obtain ⟨s', states, htrying, hsettles', hlength, hstates⟩ := ih (attempts + 1) hs₂
        ((hwait.elsewhere (by simp)).trans hway) (hwait.here.trans hnone)
        (record ++ [.attempt s p] ++ [.wait (delay attempts)])
      rw [hrest₂] at htrying hsettles' hlength
      have hsome : states ≠ [] := by
        have := (tried_count rest left).1
        apply List.length_pos_iff.mp
        omega
      refine ⟨s', s :: states, ?_, ?_, ?_, List.forall_mem_cons.mpr ⟨⟨hway, hnone⟩, hstates⟩⟩
      · rw [makeTrying, ending_bind_ok honce]
        dsimp only
        rw [ending_bind_ok (recorded_pause hpause), htrying, hagain, trying_again _ _ _ hsome]
        simp
      · rw [hagain]
        exact hwait.trans rfl hsettles'
      · rw [hagain, List.length_cons, hlength]

end Level

end Reluctant

end Tree

end VolumeFS
