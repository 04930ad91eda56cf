import VolumeFS.Proofs.Client.Create

/-!
# Files that a client opens

A file is opened for reading at its start and for appending at its end. Where a
file is that may be replaced, making a new one never fails.
-/

set_option autoImplicit false

namespace VolumeFS

open Volume

namespace Client

variable {c : Client Run} {w : World} {p : Path}

variable {x : List String} (hp : c.resolver.resolve p = .ok (.ofNames x))
  (hx : ∀ n ∈ x, IsName n)

section Existing

include hx hp

theorem openFile_outcome : outcome (c.openFile p) w =
    (match (w.entries x).map Entry.content with
      | some (.file data) => .ok (.start (.ofCapacity c.bufferSize ⟨.ofBytes data⟩) .native
        (c.qualify (.ofNames x)))
      | some .directory => .error (.isADirectory (Path.ofNames x).text)
      | none => .error (.notFound (Path.ofNames x).text), w) := by
  unfold openFile
  rw [outcome_bind_ok (resolve_outcome hp w), outcome_bind_ok (stat_outcome hx),
    Path.ofNames_key hx]
  cases he : w.entries x with
  | none => rfl
  | some e =>
    obtain ⟨data | _, mode, uid, gid⟩ := e
    · exact outcome_bind_ok (outcome_openReader (readable_file he rfl)) _
    · rfl

theorem append_outcome : outcome (c.append p) w =
    (match (w.entries x).map Entry.content with
      | some (.file data) =>
        .ok (c.output ⟨⟨x⟩, UInt64.ofNat data.length⟩ c.bufferSize (.ofNames x))
      | some .directory => .error (.isADirectory (Path.ofNames x).text)
      | none => .error (.notFound (Path.ofNames x).text), w) := by
  unfold append
  rw [outcome_bind_ok (resolve_outcome hp w), outcome_bind_ok (stat_outcome hx),
    Path.ofNames_key hx]
  cases he : w.entries x with
  | none => rfl
  | some e =>
    obtain ⟨data | _, mode, uid, gid⟩ := e
    · have hopen := outcome_openWriter (readable_file he rfl)
      have hseek : outcome (Stream.orFault (VolumeAccess.seekWriter (m := Run)
          (.start (UInt64.ofNat data.length))) ⟨⟨x⟩, 0⟩) w =
          (.ok (UInt64.ofNat data.length, ⟨⟨x⟩, UInt64.ofNat data.length⟩), w) := rfl
      exact (outcome_bind_ok hopen _).trans (outcome_bind_ok hseek _)
    · rfl

end Existing

variable (hw : w.volume.WellFormed)

include hp hx hw

/-- A new file is empty and open for writing, or else nothing was changed. -/
theorem create_outcome (options : CreateOptions) :
    (∃ fault, outcome (c.create p options) w = (.error fault, w) ∧
      ∀ e, w.entries x = some e → e.content = .directory ∨ options.overwrite = false) ∨
    ∃ w' e, outcome (c.create p options) w =
        (.ok (c.output ⟨⟨x⟩, 0⟩ (options.bufferSize.getD c.bufferSize) (.ofNames x)), w') ∧
      w'.volume.WellFormed ∧ w'.entries x = some e ∧ e.content = .file [] := by
  unfold create
  rw [outcome_bind_ok (resolve_outcome hp w)]
  have hclear := clear_outcome hw hx options.overwrite
  cases hr : outcome (clear (m := Run) (.ofNames x) options.overwrite) w with
  | mk result w₁ =>
    rw [hr] at hclear
    cases hclear with
    | directory he hdir =>
      refine .inl ⟨_, outcome_bind_error hr _, fun e he' => .inl ?_⟩
      cases he.symm.trans he'
      exact hdir
    | kept _ _ hover => exact .inl ⟨_, outcome_bind_error hr _, fun _ _ => .inr hover⟩
    | free hfree =>
      obtain ⟨x, n, rfl⟩ := named_of_free hw hfree
      obtain ⟨y, a, path, -, -, -, hend⟩ | ⟨w₁, w₂, hend, -, -, hw₂, mode, hv⟩ :=
        makeFile_outcome hw c hx hfree options
      · refine .inl ⟨_, (outcome_bind_ok hr _).trans hend, fun e he => ?_⟩
        cases hfree.symm.trans he
      · refine .inr ⟨w₂, w₁.volume.newEntry (.file []) mode, (outcome_bind_ok hr _).trans hend, hw₂,
          ?_, rfl⟩
        rw [World.entries, hv, find?_put_self]
    | replaced he hfile hover hw₁ hentries =>
      obtain ⟨x, n, rfl⟩ := named_of_file hw he hfile
      have hfree : w₁.entries (x ++ [n]) = none := by rw [hentries, Function.update_self]
      obtain ⟨y, a, path, ⟨z, rfl⟩, ha, hkind, -⟩ | ⟨w₂, w₃, hend, -, -, hw₃, mode, hv⟩ :=
        makeFile_outcome hw₁ c hx hfree options
      · -- Above a file that was there, there are directories only.
        rw [hentries, Function.update_of_ne (by simp)] at ha
        rw [List.append_assoc] at he
        obtain ⟨d, hd, hdir⟩ := hw.directory_above (by simp) he
        rw [World.entries, hd] at ha
        cases ha
        rw [kind_directory.2 hdir] at hkind
        cases hkind
      · refine .inr ⟨w₃, w₂.volume.newEntry (.file []) mode, (outcome_bind_ok hr _).trans hend, hw₃,
          ?_, rfl⟩
        rw [World.entries, hv, find?_put_self]

end Client

end VolumeFS
