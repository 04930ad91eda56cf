import VolumeFS.Command.Shell
import VolumeFS.Proofs.Run

/-!
# What the answer to a command is taken for

Running a command asks once, with the program and its arguments. All that comes
after depends on the answer alone, whoever gave it.
-/

set_option autoImplicit false

namespace VolumeFS.Shell

variable {σ : Type} [Commands (StateM σ)]

def asked (program : String) (args : List String) (s : σ) : Except IoError CommandOutput × σ :=
  (Commands.run program args : StateM σ (Except IoError CommandOutput)) s

def textOf (program : String) (args : List String) (tolerated : List Int) :
    Except IoError CommandOutput → Except Fault String
  | .error e => .error (.io (.custom e.kind s!"failed to run {program}: {e.message}"))
  | .ok output =>
    if output.code = some 0 then .ok output.stdout
    else if output.code.any tolerated.contains then .ok ""
    else .error
      (.process (" ".intercalate (program :: args)) output.code (Text.trim output.stderr))

theorem textOf_eq_ok_iff (program : String) (args : List String) (tolerated : List Int)
    (answer : Except IoError CommandOutput) (text : String) :
    textOf program args tolerated answer = .ok text ↔
      ∃ output, answer = .ok output ∧
        (output.code = some 0 ∧ output.stdout = text ∨
          output.code ≠ some 0 ∧ (∃ code ∈ tolerated, output.code = some code) ∧ text = "") := by
  cases answer with
  | error e => simp [textOf]
  | ok output =>
    simp only [Except.ok.injEq, exists_eq_left', textOf]
    by_cases hzero : output.code = some 0
    · simp [hzero]
    have htolerated : output.code.any tolerated.contains = true ↔
        ∃ code ∈ tolerated, output.code = some code := by
      cases output.code <;> simp [eq_comm]
    by_cases hany : output.code.any tolerated.contains = true
    · simp [hzero, hany, htolerated.1 hany, eq_comm]
    · simp [hzero, hany, (not_congr htolerated).1 hany]

theorem exec_ending (program : String) (args : List String) (tolerated : List Int) (s : σ) :
    ending (exec program args tolerated) s =
      (textOf program args tolerated (asked program args s).1, (asked program args s).2) := by
  have hrun : ending (liftM (Commands.run program args : StateM σ _) :
      ExceptT Fault (StateM σ) (Except IoError CommandOutput)) s =
        (.ok (asked program args s).1, (asked program args s).2) := rfl
  unfold exec invoke
  rw [ending_bind, ending_bind_ok hrun]
  rcases asked program args s with ⟨e | output, s'⟩
  · rfl
  · dsimp only [textOf]
    by_cases hzero : output.code = some 0
    · rw [if_pos hzero]
      exact congrArg (ending · s') (if_pos hzero)
    · by_cases htolerated : output.code.any tolerated.contains = true
      · rw [if_neg hzero, if_pos htolerated]
        exact congrArg (ending · s') ((if_neg hzero).trans (if_pos htolerated))
      · rw [if_neg hzero, if_neg htolerated]
        exact congrArg (ending · s') ((if_neg hzero).trans (if_neg htolerated))

def Finds {β : Type} (program : String) (args : List String) (read : String → Option β) (s : σ)
    (b : β) : Prop :=
  ∃ output, (asked program args s).1 = .ok output ∧ output.code = some 0 ∧
    read output.stdout = some b

section Reading

variable {β : Type} {program : String} {args : List String} {read : String → Option β}
  {f : String → ExceptT Fault (StateM σ) β} {written : Option β} {x : ExceptT Fault (StateM σ) β}

/-- A command is run for a value that it writes. -/
theorem exec_finds_iff (hsome : ∀ text b, read text = some b → f text = pure b)
    (hnone : ∀ text, read text = none → ∃ fault, f text = throw fault) (s : σ) (b : β) :
    (ending (exec program args [] >>= f) s).1 = .ok b ↔ Finds program args read s b := by
  have hread (text : String) (s' : σ) : (ending (f text) s').1 = .ok b ↔ read text = some b := by
    cases h : read text with
    | none =>
      obtain ⟨fault, hfault⟩ := hnone text h
      rw [hfault]
      exact ⟨nofun, nofun⟩
    | some found =>
      rw [hsome text found h]
      exact ⟨fun h => congrArg some (Except.ok.inj h),
        fun h => congrArg Except.ok (Option.some.inj h)⟩
  have htext := textOf_eq_ok_iff program args [] (asked program args s).1
  rw [ending_bind, exec_ending]
  cases h : textOf program args [] (asked program args s).1 with
  | error e =>
    constructor
    · exact nofun
    · rintro ⟨output, hanswer, hcode, -⟩
      have hok := (htext output.stdout).2 ⟨output, hanswer, .inl ⟨hcode, rfl⟩⟩
      rw [h] at hok
      cases hok
  | ok text =>
    obtain ⟨output, hanswer, ⟨hcode, rfl⟩ | ⟨-, ⟨_, hmem, -⟩, -⟩⟩ := (htext text).1 h
    · apply (hread output.stdout _).trans
      constructor
      · exact fun hb => ⟨output, hanswer, hcode, hb⟩
      · rintro ⟨output', hanswer', -, hb⟩
        rwa [Except.ok.inj (hanswer.symm.trans hanswer')]
    · exact absurd hmem List.not_mem_nil

/-- The value is the one that is written, or else it is read from what a command writes. -/
structure Finding (written : Option β) (program : String) (args : List String)
    (read : String → Option β) (x : ExceptT Fault (StateM σ) β) : Prop where
  known : ∀ b, written = some b → x = pure b
  unknown : written = none → ∃ f, x = exec program args [] >>= f ∧
    (∀ text b, read text = some b → f text = pure b) ∧
    ∀ text, read text = none → ∃ fault, f text = throw fault

theorem Finding.eq_ok_iff (h : Finding written program args read x) (s : σ) (b : β) :
    (ending x s).1 = .ok b ↔ written = some b ∨ written = none ∧ Finds program args read s b := by
  cases written with
  | none =>
    obtain ⟨f, rfl, hsome, hnone⟩ := h.unknown rfl
    rw [exec_finds_iff hsome hnone]
    simp
  | some found =>
    have hrun : (ending (pure found : ExceptT Fault (StateM σ) β) s).1 = .ok found := rfl
    rw [h.known found rfl, hrun]
    simp

end Reading

end VolumeFS.Shell
