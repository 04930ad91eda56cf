import Mathlib.Data.DFinsupp.WellFounded
import VolumeFS.World

/-!
# Operations step by step

An operation that runs beside others does not have the world to itself: between
two of its accesses the others may act. In `Steps` each access to the state is a
step of its own, so that the operations, which are written for any effects that
offer the accesses, can be taken apart there. A crowd is a family of programs on
one state of which, at each moment, any may take its next step.
-/

set_option autoImplicit false

namespace VolumeFS

/-- A program whose accesses to a state are single steps. A step changes the state, and how it goes
on depends on the state that it found. -/
inductive Steps (σ α : Type) : Type where
  | done (a : α)
  | step (act : σ → σ) (next : σ → Steps σ α)

namespace Steps

variable {σ α β : Type}

protected def bind : Steps σ α → (α → Steps σ β) → Steps σ β
  | done a, f => f a
  | step act next, f => step act fun s => Steps.bind (next s) f

instance : Monad (Steps σ) where
  pure := done
  bind := Steps.bind

def access (x : StateM σ α) : Steps σ α :=
  step (fun s => (x s).2) fun s => done (x s).1

instance {τ : Type} [MonadStateOf τ (StateM σ)] : MonadStateOf τ (Steps σ) where
  get := access (getThe τ)
  set part := access (MonadStateOf.set part)
  modifyGet f := access (modifyGetThe τ f)

def Rest (rest p : Steps σ α) : Prop :=
  ∃ act next s, p = step act next ∧ rest = next s

theorem rest_wellFounded : WellFounded (Rest (σ := σ) (α := α)) := by
  refine ⟨fun p => ?_⟩
  induction p with
  | done a => exact ⟨_, fun rest ⟨_, _, _, h, _⟩ => by cases h⟩
  | step act next ih =>
    refine ⟨_, fun rest ⟨_, _, s, h, hrest⟩ => ?_⟩
    cases h
    rw [hrest]
    exact ih s

end Steps

structure Crowd (ι σ α : Type) where
  parties : ι → Steps σ α
  shared : σ

namespace Crowd

variable {ι σ α : Type}

def Rests (c : Crowd ι σ α) (results : ι → α) : Prop := ∀ i, c.parties i = .done (results i)

variable [DecidableEq ι]

inductive Move : Crowd ι σ α → Crowd ι σ α → Prop
  | party {c : Crowd ι σ α} {i : ι} {act : σ → σ} {next : σ → Steps σ α} :
      c.parties i = .step act next →
      Move c ⟨Function.update c.parties i (next c.shared), act c.shared⟩

def Reaches : Crowd ι σ α → Crowd ι σ α → Prop := Relation.ReflTransGen Move

/-- In whatever order the parties take their steps, all of them get done, and then their results
and the state are as the property says. -/
inductive Ends (Q : (ι → α) → σ → Prop) : Crowd ι σ α → Prop
  | rest {c : Crowd ι σ α} {results : ι → α} : c.Rests results → Q results c.shared → Ends Q c
  | move {c : Crowd ι σ α} : (∃ d, Move c d) → (∀ d, Move c d → Ends Q d) → Ends Q c

theorem Ends.mono {Q R : (ι → α) → σ → Prop} {c : Crowd ι σ α} (h : Ends Q c)
    (hqr : ∀ results s, Q results s → R results s) : Ends R c := by
  induction h with
  | rest hrests hq => exact .rest hrests (hqr _ _ hq)
  | move hmoves _ ih => exact .move hmoves ih

theorem rests_or_moves (c : Crowd ι σ α) : (∃ results, c.Rests results) ∨ ∃ d, Move c d := by
  by_cases h : ∃ i act next, c.parties i = .step act next
  · obtain ⟨i, act, next, h⟩ := h
    exact .inr ⟨_, .party h⟩
  · have hdone : ∀ i, ∃ a, c.parties i = .done a := by
      intro i
      cases hi : c.parties i with
      | done a => exact ⟨a, rfl⟩
      | step act next => exact absurd ⟨i, act, next, hi⟩ h
    exact .inl (Classical.skolem.1 hdone)

/-- Finitely many parties cannot take steps for ever. -/
theorem moves_wellFounded [Finite ι] :
    WellFounded fun d c : Crowd ι σ α => Move c d := by
  have hlex : WellFounded (Pi.Lex WellOrderingRel fun {_ : ι} => Steps.Rest (σ := σ) (α := α)) :=
    Pi.Lex.wellFounded WellOrderingRel fun _ => Steps.rest_wellFounded
  refine Subrelation.wf (fun {d c} hmove => ?_) (InvImage.wf Crowd.parties hlex)
  cases hmove with
  | @party i act next hstep =>
    refine ⟨i, fun j hj => Function.update_of_ne ?_ _ _, ?_⟩
    · rintro rfl
      exact irrefl j hj
    · exact ⟨act, next, c.shared, hstep, Function.update_self _ _ _⟩

/-- What holds wherever the crowd can come to rest holds in the end. -/
theorem ends_of_rests [Finite ι] {Q : (ι → α) → σ → Prop} (c : Crowd ι σ α)
    (h : ∀ d results, c.Reaches d → d.Rests results → Q results d.shared) : Ends Q c := by
  induction c using (moves_wellFounded (ι := ι) (σ := σ) (α := α)).induction with
  | _ c ih =>
    obtain ⟨results, hrests⟩ | hmoves := c.rests_or_moves
    · exact .rest hrests (h c results .refl hrests)
    · exact .move hmoves fun d hd => ih d hd fun e results he => h e results (.head hd he)

end Crowd

end VolumeFS
