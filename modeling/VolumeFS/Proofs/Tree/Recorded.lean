import VolumeFS.Proofs.Run

/-!
# Trees with a record

A tree can be given a record of what it is asked to change: each attempt to make
a directory, with the state it was made in, and each wait. The operations on
such a tree do and return what they do and return without it, so whatever a
record shows holds of the operations themselves.
-/

set_option autoImplicit false

namespace VolumeFS.Tree

variable {σ α β : Type}

inductive Step (σ : Type) where
  /-- An attempt to make a directory, and the state that it was made in. -/
  | attempt (state : σ) (directory : Path)
  | wait (time : Nat)

def waited : List (Step σ) → Nat
  | [] => 0
  | .attempt _ _ :: steps => waited steps
  | .wait time :: steps => time + waited steps

/-- Acts on a state that has a record beside it, and adds nothing to the record. -/
def besides (x : StateM σ α) : StateM (σ × List (Step σ)) α := fun (s, record) =>
  ((x s).1, (x s).2, record)

def recorded (t : Tree (StateM σ)) : Tree (StateM (σ × List (Step σ))) where
  kind p := ExceptT.mk (besides (t.kind p).run)
  makeDirectory p := ExceptT.mk fun (s, record) =>
    besides (t.makeDirectory p).run (s, record ++ [.attempt s p])
  childNames p := ExceptT.mk (besides (t.childNames p).run)
  removeEntry p kind := ExceptT.mk (besides (t.removeEntry p kind).run)
  pause time := fun (s, record) => besides (t.pause time) (s, record ++ [.wait time])
  reach := besides t.reach

/-- The run with a record does what the one without it does. -/
def Forgets (x : ExceptT Fault (StateM (σ × List (Step σ))) α)
    (y : ExceptT Fault (StateM σ) α) : Prop :=
  ∀ s record, ∃ record', ending x (s, record) = ((ending y s).1, (ending y s).2, record')

theorem forgets_pure (a : α) : Forgets (σ := σ) (pure a) (pure a) :=
  fun _ record => ⟨record, rfl⟩

theorem forgets_throw (fault : Fault) :
    Forgets (σ := σ) (α := α) (throw fault) (throw fault) :=
  fun _ record => ⟨record, rfl⟩

theorem forgets_bind {x : ExceptT Fault (StateM (σ × List (Step σ))) α}
    {y : ExceptT Fault (StateM σ) α} {f : α → ExceptT Fault (StateM (σ × List (Step σ))) β}
    {g : α → ExceptT Fault (StateM σ) β} (hx : Forgets x y) (hf : ∀ a, Forgets (f a) (g a)) :
    Forgets (x >>= f) (y >>= g) := by
  intro s record
  obtain ⟨record', hrun⟩ := hx s record
  rw [ending_bind, ending_bind, hrun]
  rcases ending y s with ⟨fault | a, s'⟩
  · exact ⟨record', rfl⟩
  · exact hf a s' record'

theorem forgets_attempt {x : ExceptT Fault (StateM (σ × List (Step σ))) α}
    {y : ExceptT Fault (StateM σ) α} (h : Forgets x y) : Forgets (attempt x) (attempt y) := by
  intro s record
  obtain ⟨record', hrun⟩ := h s record
  rw [ending_attempt, ending_attempt, hrun]
  exact ⟨record', rfl⟩

section Mkdirs

variable (t : Tree (StateM σ)) (p : Path)

theorem forgets_kind : Forgets (t.recorded.kind p) (t.kind p) :=
  fun _ record => ⟨record, rfl⟩

theorem forgets_makeDirectory : Forgets (t.recorded.makeDirectory p) (t.makeDirectory p) :=
  fun _ _ => ⟨_, rfl⟩

theorem forgets_pause (time : Nat) :
    Forgets (liftM (t.recorded.pause time) : ExceptT Fault (StateM (σ × List (Step σ))) Unit)
      (liftM (t.pause time)) :=
  fun _ _ => ⟨_, rfl⟩

theorem forgets_makeOnce : Forgets (t.recorded.makeOnce p) (t.makeOnce p) := by
  apply forgets_bind (forgets_attempt (t.forgets_makeDirectory p))
  intro made
  cases made with
  | ok _ => exact forgets_pure _
  | error fault =>
    apply forgets_bind (t.forgets_kind p)
    intro found
    exact forgets_pure _

theorem forgets_makeTrying (left attempts : Nat) :
    Forgets (t.recorded.makeTrying p attempts left) (t.makeTrying p attempts left) := by
  induction left generalizing attempts with
  | zero =>
    apply forgets_bind (t.forgets_makeOnce p)
    intro fault?
    cases fault? with
    | none => exact forgets_pure _
    | some fault => exact forgets_throw fault
  | succ left ih =>
    apply forgets_bind (t.forgets_makeOnce p)
    intro fault?
    cases fault? with
    | none => exact forgets_pure _
    | some fault =>
      apply forgets_bind (t.forgets_pause (delay attempts))
      intro _
      exact ih (attempts + 1)

theorem forgets_makeAll (directories : List Path) :
    Forgets (t.recorded.makeAll directories) (t.makeAll directories) := by
  induction directories with
  | nil => exact forgets_pure _
  | cons directory rest ih =>
    apply forgets_bind (t.forgets_kind directory)
    intro found
    cases found with
    | none =>
      apply forgets_bind (t.forgets_makeTrying directory retries 0)
      intro _
      exact ih
    | some kind =>
      cases kind with
      | directory => exact ih
      | file => exact forgets_throw _

theorem forgets_mkdirs : Forgets (t.recorded.mkdirs p) (t.mkdirs p) :=
  t.forgets_makeAll p.lineage

end Mkdirs

end VolumeFS.Tree
