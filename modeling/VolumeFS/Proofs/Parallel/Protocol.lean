import VolumeFS.Proofs.Parallel.Steps
import VolumeFS.Proofs.Run

/-!
# Working beside others

A protocol says what each party may do to the state in one step, and what it may
find that the others did meanwhile. The state of a protocol may tell more than
the state that is there, such as who was first. A party keeps to its part if each
of its steps is one that it may take, whatever the others do in between. If all
parties do, the protocol holds of every interleaving: what one step does is
followed along the run, and what each party ensures in the end holds for all.
-/

set_option autoImplicit false

namespace VolumeFS

def Steps.Single {α : Type} (x : ExceptT Fault (Steps World) α) (y : ExceptT Fault Run α) : Prop :=
  x.run = .access (outcome y)

/-- What parties do to a state and what they find done to it. -/
structure Protocol (ι σ τ : Type) where
  /-- The state that is there. -/
  view : τ → σ
  /-- What a party may do in one step. -/
  does : ι → τ → τ → Prop
  /-- What a party may find done by the others. -/
  sees : ι → τ → τ → Prop
  sees_refl : ∀ i t, sees i t t
  sees_trans : ∀ {i t t' t''}, sees i t t' → sees i t' t'' → sees i t t''
  /-- No step of another is a surprise. -/
  noticed : ∀ {i j t t'}, i ≠ j → does i t t' → sees j t t'

namespace Protocol

variable {ι σ τ α β ε : Type} (P : Protocol ι σ τ) (i : ι)

/-- From here on the party takes only steps that it may take, and in the end `Q` holds of its
result and the state. -/
def Keeps (Q : α → τ → Prop) : Steps σ α → τ → Prop
  | .done a, t => Q a t
  | .step act next, t => ∃ t', P.view t' = act (P.view t) ∧ P.does i t t' ∧
      ∀ t'', P.sees i t' t'' → Keeps Q (next (P.view t)) t''

variable {P i}

section Rules

variable {Q R : α → τ → Prop} {x : Steps σ α} {t : τ}

theorem Keeps.mono (h : P.Keeps i Q x t) (hqr : ∀ a t', Q a t' → R a t') : P.Keeps i R x t := by
  induction x generalizing t with
  | done a => exact hqr a t h
  | step act next ih =>
    obtain ⟨t', hview, hdoes, hnext⟩ := h
    exact ⟨t', hview, hdoes, fun t'' hsees => ih _ (hnext t'' hsees)⟩

theorem Keeps.bind {f : α → Steps σ β} {Q : β → τ → Prop}
    (h : P.Keeps i (fun a t' => P.Keeps i Q (f a) t') x t) : P.Keeps i Q (x >>= f) t := by
  induction x generalizing t with
  | done a => exact h
  | step act next ih =>
    obtain ⟨t', hview, hdoes, hnext⟩ := h
    exact ⟨t', hview, hdoes, fun t'' hsees => ih _ (hnext t'' hsees)⟩

theorem keeps_access {x : StateM σ α} {u : τ} (hview : P.view u = (x (P.view t)).2)
    (hdoes : P.does i t u) (h : ∀ t', P.sees i u t' → Q (x (P.view t)).1 t') :
    P.Keeps i Q (.access x) t :=
  ⟨u, hview, hdoes, h⟩

end Rules

section Results

def Gives (P : Protocol ι σ τ) (i : ι) (R : α → τ → Prop) (x : ExceptT ε (Steps σ) α) (t : τ) :
    Prop :=
  P.Keeps i (fun result t' => ∃ a, result = .ok a ∧ R a t') x.run t

variable {Q : Except ε β → τ → Prop} {R : α → τ → Prop} {x : ExceptT ε (Steps σ) α} {t : τ}
  {f : α → ExceptT ε (Steps σ) β}

theorem keeps_bind
    (h : P.Keeps i (fun result t' => match result with
      | .ok a => P.Keeps i Q (f a).run t'
      | .error e => Q (.error e) t') x.run t) : P.Keeps i Q (x >>= f).run t := by
  refine Keeps.bind (h.mono fun result t' hr => ?_)
  cases result with
  | ok a => exact hr
  | error e => exact hr

/-- After a success comes what comes next. -/
theorem Gives.next (h : P.Gives i R x t) (hf : ∀ a t', R a t' → P.Keeps i Q (f a).run t') :
    P.Keeps i Q (x >>= f).run t := by
  refine keeps_bind (h.mono fun result t' hr => ?_)
  obtain ⟨a, rfl, ha⟩ := hr
  exact hf a t' ha

theorem keeps_attempt {x : ExceptT Fault (Steps σ) α} {Q : Except Fault (Except Fault α) → τ → Prop}
    (h : P.Keeps i (fun result t' => Q (.ok result) t') x.run t) :
    P.Keeps i Q (attempt x).run t :=
  Keeps.bind h

end Results

/-- A single step has the outcome of the operation that it does. -/
theorem keeps_single {P : Protocol ι World τ} {Q : Except Fault α → τ → Prop}
    {x : ExceptT Fault (Steps World) α} {y : ExceptT Fault Run α} (hx : Steps.Single x y)
    {t u : τ} {result : Except Fault α} (hend : outcome y (P.view t) = (result, P.view u))
    (hdoes : P.does i t u) (h : ∀ t', P.sees i u t' → Q result t') :
    P.Keeps i Q x.run t := by
  rw [hx]
  refine keeps_access (u := u) ?_ hdoes ?_
  · rw [hend]
  · rwa [hend]

section Crowd

variable {Q : ι → α → τ → Prop} {c d : Crowd ι σ α} {t t' : τ}

def Step (P : Protocol ι σ τ) (t t' : τ) : Prop := ∃ i, P.does i t t'

def Star (P : Protocol ι σ τ) : τ → τ → Prop := Relation.ReflTransGen P.Step

/-- What each step of a protocol keeps, a run of it keeps. -/
theorem Star.keeps {G : τ → τ → Prop} (h : P.Star t t') (hrefl : ∀ t, G t t)
    (htrans : ∀ {t t' t''}, G t t' → G t' t'' → G t t'')
    (hstep : ∀ i t t', P.does i t t' → G t t') : G t t' := by
  induction h with
  | refl => exact hrefl t
  | tail _ hlast ih =>
    obtain ⟨i, hdoes⟩ := hlast
    exact htrans ih (hstep i _ _ hdoes)

structure Holds (P : Protocol ι σ τ) (Q : ι → α → τ → Prop) (c : Crowd ι σ α) (t : τ) : Prop where
  shared : P.view t = c.shared
  parties : ∀ i t', P.sees i t t' → P.Keeps i (Q i) (c.parties i) t'

/-- Once all are done, what each of them ensures holds of its result and the state. -/
theorem Holds.rests {results : ι → α} (h : P.Holds Q c t) (hc : c.Rests results) (i : ι) :
    Q i (results i) t := by
  have hkeeps := h.parties i t (P.sees_refl i t)
  rwa [hc i] at hkeeps

variable [DecidableEq ι]

theorem Holds.move (h : P.Holds Q c t) (hmove : Crowd.Move c d) :
    ∃ t', P.Step t t' ∧ P.Holds Q d t' := by
  cases hmove with
  | @party i act next hstep =>
    have hkeeps := h.parties i t (P.sees_refl i t)
    rw [hstep] at hkeeps
    obtain ⟨t', hview, hdoes, hnext⟩ := hkeeps
    rw [h.shared] at hview hnext
    refine ⟨t', ⟨i, hdoes⟩, hview, fun j t'' hsees => ?_⟩
    dsimp only
    by_cases hj : j = i
    · subst hj
      rw [Function.update_self]
      exact hnext t'' hsees
    · rw [Function.update_of_ne hj]
      exact h.parties j t'' (P.sees_trans (P.noticed (Ne.symm hj) hdoes) hsees)

theorem Holds.reaches (h : P.Holds Q c t) (hd : c.Reaches d) :
    ∃ t', P.Star t t' ∧ P.Holds Q d t' := by
  induction hd with
  | refl => exact ⟨t, .refl, h⟩
  | tail _ hmove ih =>
    obtain ⟨t₁, hstar, h₁⟩ := ih
    obtain ⟨t₂, hstep, h₂⟩ := h₁.move hmove
    exact ⟨t₂, .tail hstar hstep, h₂⟩

/-- A party that goes on alone comes to its end as it may. -/
theorem Keeps.alone {i : ι} {R : α → τ → Prop} (h : P.Keeps i R (c.parties i) t)
    (hshared : P.view t = c.shared) : ∃ a t', R a t' ∧ Relation.ReflTransGen (P.does i) t t' ∧
      c.Reaches ⟨Function.update c.parties i (.done a), P.view t'⟩ := by
  induction hp : c.parties i generalizing c t with
  | done a =>
    rw [hp] at h
    refine ⟨a, t, h, .refl, ?_⟩
    rw [← hp, Function.update_eq_self, hshared]
    exact .refl
  | step act next ih =>
    rw [hp] at h
    obtain ⟨t₁, hview, hdoes, hnext⟩ := h
    rw [hshared] at hview hnext
    let c₁ : Crowd ι σ α := ⟨Function.update c.parties i (next c.shared), act c.shared⟩
    have hparty : c₁.parties i = next c.shared := Function.update_self _ _ _
    obtain ⟨a, t₂, hr, hrest, hreaches⟩ := ih c.shared (c := c₁) (t := t₁)
      (by rw [hparty]; exact hnext t₁ (P.sees_refl i t₁)) hview hparty
    refine ⟨a, t₂, hr, .head hdoes hrest, .head (.party hp) ?_⟩
    rwa [Function.update_idem] at hreaches

theorem Holds.ends [Finite ι] {R : (ι → α) → σ → Prop} (h : P.Holds Q c t)
    (hfinal : ∀ results t', P.Star t t' → (∀ i, Q i (results i) t') → R results (P.view t')) :
    c.Ends R := by
  refine c.ends_of_rests fun d results hd hrests => ?_
  obtain ⟨t', hstar, h'⟩ := h.reaches hd
  rw [← h'.shared]
  exact hfinal results t' hstar (h'.rests hrests)

end Crowd

end Protocol

end VolumeFS
