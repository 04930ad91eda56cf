import VolumeFS.Mount
import VolumeFS.Proofs.Disk.Walk

/-!
# Paths under a mount

The path of a file under the mounted directory is the text of that directory
followed by the names. Hence it leads to the mounted directory and from there
along the names, wherever the system takes a path of that length.
-/

set_option autoImplicit false

namespace VolumeFS

namespace Mount

open Disk

/-- A name is put after a text that ends with a slash, or after the slash that it lacks. -/
theorem pushName_cases {s n : String} (hs : s ≠ "") (hn : IsName n) :
    (∃ cs, s.toList = cs ++ ['/'] ∧ pushName s n = s ++ n) ∨
      (s.toList.getLast? ≠ some '/' ∧ pushName s n = s ++ "/" ++ n) := by
  unfold pushName
  rw [if_neg hn.head]
  by_cases hslash : s.toList.getLast? = some '/'
  · rw [if_pos (.inr hslash)]
    exact .inl ⟨_, (List.dropLast_append_getLast? '/' hslash).symm, rfl⟩
  · rw [if_neg (by simp [hs, hslash])]
    exact .inr ⟨hslash, rfl⟩

theorem pushName_text {s n : String} (hs : s ≠ "") (hn : IsName n) :
    ∃ between, (between = [] ∨ between = ['/']) ∧
      (pushName s n).toList = s.toList ++ between ++ n.toList := by
  rcases pushName_cases hs hn with ⟨cs, -, he⟩ | ⟨-, he⟩
  · exact ⟨[], .inl rfl, by rw [he, String.toList_append, List.append_nil]⟩
  · refine ⟨['/'], .inr rfl, ?_⟩
    rw [he, String.toList_append, String.toList_append]
    rfl

theorem pushName_ne {s : String} (hs : s ≠ "") (n : String) : pushName s n ≠ "" := by
  unfold pushName
  by_cases hslash : n.toList.head? = some '/'
  · rw [if_pos hslash]
    rintro rfl
    cases hslash
  · rw [if_neg hslash]
    split_ifs <;> simp [hs]

theorem pushName_length (s : String) {n : String} (hn : IsName n) :
    s.utf8ByteSize ≤ (pushName s n).utf8ByteSize := by
  unfold pushName
  rw [if_neg hn.head]
  split_ifs <;> simp only [String.utf8ByteSize_append] <;> omega

/-- The parts of the text with a name after it end with the name. -/
theorem parts_pushName {s n : String} (hs : s ≠ "") (hn : IsName n) :
    ∃ before, parts (pushName s n) = before ++ [n] ∧
      (s.toList.getLast? ≠ some '/' → before = parts s) ∧
      steps before = steps (parts s) ∧ ∀ part ∈ before, part ∈ parts s := by
  have hlast : (Text.fields '/' n.toList).map String.ofList = [n] := by
    rw [fields_slashfree hn.2.2.2]
    simp
  rcases pushName_cases hs hn with ⟨cs, hcs, he⟩ | ⟨hend, he⟩
  · refine ⟨(Text.fields '/' cs).map String.ofList, ?_, fun hend => ?_, ?_, ?_⟩
    · rw [he, parts, String.toList_append, hcs, List.append_assoc, List.singleton_append,
        fields_append, List.map_append, hlast]
    · exact absurd (by rw [hcs, List.getLast?_concat]) hend
    · rw [parts, hcs, fields_append, List.map_append, steps_append]
      simp [steps, Text.fields]
    · intro part hp
      rw [parts, hcs, fields_append, List.map_append]
      exact List.mem_append_left _ hp
  · refine ⟨parts s, ?_, fun _ => rfl, rfl, fun _ => id⟩
    have hslash : "/".toList = ['/'] := rfl
    rw [he, parts, String.toList_append, String.toList_append, hslash, List.append_assoc,
      List.singleton_append, fields_append, List.map_append, hlast]
    rfl

theorem pushName_end {s n : String} (hs : s ≠ "") (hn : IsName n) :
    (pushName s n).toList.getLast? ≠ some '/' := by
  obtain ⟨between, -, he⟩ := pushName_text hs hn
  have hn0 : n.toList ≠ [] := fun h0 => hn.1 (String.toList_eq_nil_iff.1 h0)
  rw [he, List.getLast?_append_of_ne_nil _ hn0]
  intro hslash
  exact hn.2.2.2 (List.mem_of_getLast? hslash)

variable {m : Type → Type} (t : Mount m)

theorem localPath_concat (x : List String) (n : String) :
    t.localPath (.ofNames (x ++ [n])) = pushName (t.localPath (.ofNames x)) n := by
  simp [localPath, Path.ofNames, List.foldl_append]

variable {t} in
theorem localPath_nonempty (hne : t.directory ≠ "") (x : List String) :
    t.localPath (.ofNames x) ≠ "" := by
  induction x using List.reverseRecOn with
  | nil => exact hne
  | append_singleton x n ih =>
    rw [localPath_concat]
    exact pushName_ne ih n

def namesSize : List String → Nat
  | [] => 0
  | n :: x => n.utf8ByteSize + 1 + namesSize x

theorem namesSize_append (x y : List String) :
    namesSize (x ++ y) = namesSize x + namesSize y := by
  induction x with
  | nil => exact (Nat.zero_add _).symm
  | cons n x ih =>
    rw [List.cons_append, namesSize, namesSize, ih]
    omega

variable {t} in
theorem localPath_size (hne : t.directory ≠ "") (hend : t.directory.toList.getLast? ≠ some '/')
    {x : List String} (hx : ∀ n ∈ x, IsName n) :
    (t.localPath (.ofNames x)).utf8ByteSize =
      t.directory.utf8ByteSize + namesSize x := by
  have hgrows : t.localPath (.ofNames x) ≠ "" ∧
      (t.localPath (.ofNames x)).toList.getLast? ≠ some '/' ∧
      (t.localPath (.ofNames x)).utf8ByteSize =
        t.directory.utf8ByteSize + namesSize x := by
    induction x using List.reverseRecOn with
    | nil => exact ⟨hne, hend, rfl⟩
    | append_singleton x n ih =>
      obtain ⟨hs, hslash, hsize⟩ := ih fun m hm => hx m (by simp [hm])
      have hn := hx n (by simp)
      rw [localPath_concat]
      refine ⟨pushName_ne hs n, pushName_end hs hn, ?_⟩
      obtain ⟨cs, hcs, -⟩ | ⟨-, he⟩ := pushName_cases hs hn
      · exact absurd (by rw [hcs, List.getLast?_concat]) hslash
      · have hone : "/".utf8ByteSize = 1 := rfl
        rw [he, String.utf8ByteSize_append, String.utf8ByteSize_append, hsize, hone,
          namesSize_append, namesSize, namesSize]
        omega
  exact hgrows.2.2

structure Fits (x : List String) : Prop where
  names : ∀ n ∈ x, EntryName n
  short : (t.localPath (.ofNames x)).utf8ByteSize ≤ pathLimit

structure Seated (base : Place) (d : Disk) : Prop where
  named : t.directory ≠ ""
  nul : ∀ c ∈ t.directory.toList, c.toNat ≠ 0
  down : ".." ∉ parts t.directory
  place : base = (if t.directory.toList.head? = some '/' then [] else d.current) ++
    steps (parts t.directory)

variable {t}

theorem fits_above {x : List String} {n : String} (h : t.Fits (x ++ [n])) :
    t.Fits x ∧ EntryName n := by
  have hn := h.names n (by simp)
  refine ⟨⟨fun m hm => h.names m (by simp [hm]), ?_⟩, hn⟩
  have hshort := h.short
  rw [localPath_concat] at hshort
  exact Nat.le_trans (pushName_length _ hn.name) hshort

namespace Seated

variable {base : Place} {d : Disk} (h : t.Seated base d)

include h

theorem localPath_ne (x : List String) : t.localPath (.ofNames x) ≠ "" :=
  localPath_nonempty h.named x

theorem localPath_head (x : List String) (hx : ∀ n ∈ x, EntryName n) :
    (t.localPath (.ofNames x)).toList.head? = t.directory.toList.head? := by
  induction x using List.reverseRecOn with
  | nil => rfl
  | append_singleton x n ih =>
    obtain ⟨between, -, he⟩ := pushName_text (h.localPath_ne x) (hx n (by simp)).name
    have hne : (t.localPath (.ofNames x)).toList ≠ [] :=
      fun h0 => h.localPath_ne x (String.toList_eq_nil_iff.1 h0)
    rw [localPath_concat, he, List.append_assoc, List.head?_append_of_ne_nil _ hne]
    exact ih fun m hm => hx m (by simp [hm])

theorem localPath_nul (x : List String) (hx : ∀ n ∈ x, EntryName n) :
    ∀ c ∈ (t.localPath (.ofNames x)).toList, c.toNat ≠ 0 := by
  induction x using List.reverseRecOn with
  | nil => exact h.nul
  | append_singleton x n ih =>
    obtain ⟨between, hbetween, he⟩ := pushName_text (h.localPath_ne x) (hx n (by simp)).name
    rw [localPath_concat, he]
    intro c hc
    rcases List.mem_append.1 hc with hc | hc
    · rcases List.mem_append.1 hc with hc | hc
      · exact ih (fun m hm => hx m (by simp [hm])) c hc
      · rcases hbetween with rfl | rfl
        · cases hc
        · rw [List.mem_singleton.1 hc]
          decide
    · exact (hx n (by simp)).nul c hc

/-- The parts lead to the mounted directory, and then come the names. -/
theorem localPath_parts (x : List String) (hx : ∀ n ∈ x, EntryName n) :
    ∃ before, parts (t.localPath (.ofNames x)) = before ++ x ∧ ".." ∉ before ∧
      steps before = steps (parts t.directory) ∧
      (x ≠ [] → (t.localPath (.ofNames x)).toList.getLast? ≠ some '/') := by
  induction x using List.reverseRecOn with
  | nil =>
    exact ⟨parts t.directory, by rw [List.append_nil]; rfl, h.down, rfl,
      fun h0 => absurd rfl h0⟩
  | append_singleton x n ih =>
    have hn := (hx n (by simp)).name
    have hne := h.localPath_ne x
    obtain ⟨before, hparts, hup, hsteps, hend⟩ := ih (fun m hm => hx m (by simp [hm]))
    obtain ⟨before', hparts', hkeep, hsteps', hsub⟩ := parts_pushName hne hn
    rw [localPath_concat]
    by_cases hx0 : x = []
    · subst hx0
      rw [List.append_nil] at hparts
      refine ⟨before', hparts', fun hmem => hup ?_, ?_, fun _ => pushName_end hne hn⟩
      · rw [← hparts]
        exact hsub _ hmem
      · rw [hsteps', hparts, hsteps]
    · refine ⟨before, ?_, hup, hsteps, fun _ => pushName_end hne hn⟩
      rw [hparts', hkeep (hend hx0), hparts, List.append_assoc]

theorem leads {x : List String} (hx : t.Fits x) : d.Leads (t.localPath (.ofNames x)) base x := by
  obtain ⟨before, hparts, hup, hsteps, -⟩ := h.localPath_parts x hx.names
  refine ⟨if t.directory.toList.head? = some '/' then [] else d.current, before, ?_, hup, ?_⟩
  · have hnul : (t.localPath (.ofNames x)).toList.any (·.toNat = 0) = false := by
      rw [List.any_eq_false]
      intro c hc
      simpa using h.localPath_nul x hx.names c hc
    unfold route
    rw [if_neg (by simp [hnul]), if_neg (h.localPath_ne x), if_neg (Nat.not_lt.2 hx.short),
      hparts, h.localPath_head x hx.names]
  · rw [hsteps]
    exact h.place.symm

end Seated

end Mount

end VolumeFS
