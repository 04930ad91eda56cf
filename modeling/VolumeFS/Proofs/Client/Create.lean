import VolumeFS.Proofs.Client.Copy

/-!
# Creating files by a client

A file that may be replaced is removed first. After that the place is free, and
nothing but a file on the way to it can keep the new file from being made.
-/

set_option autoImplicit false

namespace VolumeFS

open Volume

namespace Client

variable {w : World} (hw : w.volume.WellFormed)

inductive Cleared (w : World) (x : List String) (overwrite : Bool) : Except Fault Unit → World → Prop
  | free : w.entries x = none → Cleared w x overwrite (.ok ()) w
  | replaced {e : Entry} {data : List Byte} {w' : World} :
      w.entries x = some e → e.content = .file data → overwrite = true →
      w'.volume.WellFormed → w'.entries = Function.update w.entries x none →
      Cleared w x overwrite (.ok ()) w'
  | directory {e : Entry} : w.entries x = some e → e.content = .directory →
      Cleared w x overwrite (.error (.isADirectory (Path.ofNames x).text)) w
  | kept {e : Entry} {data : List Byte} :
      w.entries x = some e → e.content = .file data → overwrite = false →
      Cleared w x overwrite (.error (.alreadyExists (Path.ofNames x).text)) w

include hw

theorem clear_outcome {x : List String} (hx : ∀ n ∈ x, IsName n) (overwrite : Bool) :
    Cleared w x overwrite (outcome (clear (m := Run) (.ofNames x) overwrite) w).1
      (outcome (clear (m := Run) (.ofNames x) overwrite) w).2 := by
  unfold clear
  rw [Path.ofNames_key hx, outcome_bind_ok (outcome_stat _ w), stat?]
  cases he : w.volume.find? ⟨x⟩ with
  | none => exact .free he
  | some e =>
    cases hc : e.content with
    | directory =>
      have hst : e.stat.isDirectory = true := by simp [Entry.stat, hc, Content.isDirectory]
      simp only [Option.map_some, hst, if_true]
      exact .directory he hc
    | file data =>
      have hst : e.stat.isDirectory = false := by simp [Entry.stat, hc, Content.isDirectory]
      simp only [Option.map_some, hst]
      cases overwrite with
      | false => exact .kept he hc rfl
      | true =>
        have hleaf : ∀ n, w.volume.find? ⟨x ++ [n]⟩ = none := by
          intro n
          refine hw.nothing_below (by simp) (fun d hd hdir => ?_)
          rw [he] at hd
          cases hd
          rw [hc] at hdir
          cases hdir
        have hx0 : x ≠ [] := by
          rintro rfl
          obtain ⟨r, hr, hdir⟩ := hw.root
          rw [← Key.root, hr] at he
          cases he
          rw [hc] at hdir
          cases hdir
        have hroot : Key.mk x ≠ .root := fun h0 => hx0 (by simpa [Key.root] using h0)
        obtain ⟨v, hv, hentries, -⟩ := delete_leaf hroot he (hw.hasBelow_childless hleaf)
        have hdelete : outcome (VolumeAccess.delete ⟨x⟩) w = (.ok (), { w with volume := v }) :=
          outcome_update_ok hv
        simp only [Bool.false_eq_true, if_false, Bool.not_true]
        rw [hdelete]
        exact .replaced he hc rfl (hw.erased hx0 hleaf hentries) (entries_erased w hentries)

/-- The new file is empty and lies in a directory. -/
theorem makeFile_outcome (c : Client Run) {x : List String} {n : String}
    (hx : ∀ m ∈ x ++ [n], IsName m) (hfree : w.entries (x ++ [n]) = none)
    (options : CreateOptions) :
    (∃ y a path, y <+: x ∧ w.entries y = some a ∧ a.kind = .file ∧
      outcome (c.makeFile (.ofNames (x ++ [n])) options) w =
        (.error (.alreadyExists path), w)) ∨
    ∃ w₁ w₂ : World, outcome (c.makeFile (.ofNames (x ++ [n])) options) w =
        (.ok (c.output ⟨⟨x ++ [n]⟩, 0⟩ (options.bufferSize.getD c.bufferSize)
          (.ofNames (x ++ [n]))), w₂) ∧
      w₁.volume.WellFormed ∧ Tree.Made Entry.kind w.entries w₁.entries x ∧
      w₂.volume.WellFormed ∧
      ∃ mode, w₂.volume = w₁.volume.put ⟨x ++ [n]⟩ (w₁.volume.newEntry (.file []) mode) := by
  have hn : IsName n := hx n (by simp)
  unfold makeFile
  obtain ⟨y, a, path, hy, ha, hfile, hend⟩ | ⟨w₁, hmade, hw₁, hdirs⟩ :=
    tree_serves.ensureParent_outcome x n hw hx
  · exact .inl ⟨y, a, path, hy, ha, hfile, outcome_bind_error hend _⟩
  · refine .inr ?_
    obtain ⟨d, hd, hdir⟩ := hdirs.made x (List.prefix_refl x)
    rw [kind_directory] at hdir
    have hfree₁ : w₁.entries (x ++ [n]) = none := by
      rw [hdirs.only _ (Tree.below_not_above (by simp)), hfree]
    let w₂ : World :=
      { w₁ with volume := w₁.volume.put ⟨x ++ [n]⟩ (w₁.volume.newEntry (.file []) 0o644) }
    have hcreate : outcome (VolumeAccess.createFile ⟨x ++ [n]⟩) w₁ = (.ok (), w₂) :=
      outcome_update_ok (add_free hfree₁ hd hdir _ _)
    obtain ⟨w₃, mode, hperm, hmode, hv₃⟩ : ∃ (w₃ : World) (mode : UInt32),
        outcome (permit (.ofNames (x ++ [n])) options.permission) w₂ = (.ok (), w₃) ∧
        mode ≤ 0o7777 ∧
        w₃.volume = w₁.volume.put ⟨x ++ [n]⟩ (w₁.volume.newEntry (.file []) mode) := by
      cases options.permission with
      | none => exact ⟨w₂, 0o644, rfl, by decide, rfl⟩
      | some permission =>
        have hchmod := chmod_found (w := w₂) (find?_put_self _ _ _) permission.mode
        rw [← Path.ofNames_key hx] at hchmod
        refine ⟨_, permission.mode &&& 0o7777, hchmod, mode_bits _, ?_⟩
        rw [Path.ofNames_key hx]
        exact put_put _ _ _ _
    have hopen : outcome (VolumeAccess.openWriter (Key.mk (x ++ [n]))) w₃ =
        (.ok ⟨⟨x ++ [n]⟩, 0⟩, w₃) := by
      have hfile : w₃.volume.find? ⟨x ++ [n]⟩ = some (w₁.volume.newEntry (.file []) mode) := by
        rw [hv₃, find?_put_self]
      exact outcome_openWriter (readable_file hfile rfl)
    refine ⟨w₁, w₃, ?_, hw₁, hdirs, ?_, mode, hv₃⟩
    · rw [outcome_bind_ok hmade, Path.ofNames_key hx, outcome_bind_ok hcreate,
        outcome_bind_ok hperm, outcome_bind_ok hopen]
      rfl
    · rw [hv₃]
      exact hw₁.put_new hn hd hdir hfree₁ hmode (Nat.zero_le _)

end Client

end VolumeFS
