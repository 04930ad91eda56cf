import VolumeFS.Proofs.Tree.Ascent
import VolumeFS.Proofs.Tree.Script

/-!
# Scripted trees are reluctant

The script of a tree lays down how often a directory fails to be made, and what
is there after the last failure. If that is always a directory, and looking does
not fail, the tree is reluctant, so directories are made there as far as the
script allows.
-/

set_option autoImplicit false

namespace VolumeFS

theorem Path.LeadsDown.text {p : Path} {x : List String} (h : p.LeadsDown x) :
    p.text = (ofNames x).text := by
  unfold Path.text
  rw [h.absolute, h.segments]
  rfl

namespace TreeScript

open VolumeFS.Tree

def refusals (fault : Fault) (appears : Bool) : Nat → List Refusal
  | 0 => []
  | times + 1 => ⟨fault, times == 0 && appears⟩ :: refusals fault appears times

def makes (s : TreeScript) (x : List String) : List Refusal :=
  if ∀ n ∈ x, IsName n then
    match s.failingMakes.lookup (Path.ofNames x).text with
    | some ⟨times, appears⟩ =>
      refusals (.backend s!"cannot mkdir {(Path.ofNames x).text}")
        (appears == some .directory) times
    | none => []
  else []

structure Friendly (s : TreeScript) : Prop where
  looks : s.failingKinds = []
  appears : ∀ key f, s.failingMakes.lookup key = some f → f.appears ≠ some .file

section Steps

variable {s s' : TreeScript} {x : List String}

theorem layout_same (h : s'.entries = s.entries) : s'.layout = s.layout := by
  unfold layout
  rw [h]

theorem layout_set (hne : x ≠ []) (hx : ∀ n ∈ x, IsName n) {a : EntryKind}
    (h : s'.entries = Table.set (Path.ofNames x).text a s.entries) :
    s'.layout = Function.update s.layout x (some a) := by
  funext y
  by_cases hy : y = x
  · subst hy
    rw [Function.update_self, layout_named hne hx, h, Table.lookup_set_self]
  · rw [Function.update_of_ne hy]
    unfold layout
    split_ifs with h0 hnames
    · rfl
    · rw [h, Table.lookup_set_of_ne fun he => hy (Path.text_injective hnames hx he)]
    · rfl

theorem makes_named (hx : ∀ n ∈ x, IsName n) {f : MakeFailure}
    (h : s.failingMakes.lookup (Path.ofNames x).text = some f) :
    s.makes x = refusals (.backend s!"cannot mkdir {(Path.ofNames x).text}")
      (f.appears == some .directory) f.times := by
  unfold makes
  rw [if_pos hx, h]

theorem makes_elsewhere (hx : ∀ n ∈ x, IsName n) {f : MakeFailure}
    (h : s'.failingMakes = Table.set (Path.ofNames x).text f s.failingMakes) {y : List String}
    (hy : y ≠ x) : s'.makes y = s.makes y := by
  unfold makes
  split_ifs with hnames
  · rw [h, Table.lookup_set_of_ne fun he => hy (Path.text_injective hnames hx he)]
  · rfl

theorem kind_found (hs : s.Friendly) {p : Path} (hne : x ≠ []) (hp : p.LeadsDown x) :
    ending (tree.kind p) s = (.ok (s.layout x), s) := by
  show (TreeScript.kind p.text s, s) = _
  unfold TreeScript.kind
  rw [hp.text, hs.looks, layout_named hne hp.names, if_neg (by simp),
    if_neg (text_ne_root hne hp.names)]

theorem make_done {p : Path} (hne : x ≠ []) (hs : s.Friendly) (hp : p.LeadsDown x)
    (h : s.makes x = []) : ∃ s', ending (tree.makeDirectory p) s = (.ok (), s') ∧
      Settles layout makes Friendly s s' x true := by
  have hmake : TreeScript.make (Path.ofNames x).text s = (.ok (), { s with
      log := s!"mkdir {(Path.ofNames x).text}" :: s.log
      entries := Table.set (Path.ofNames x).text .directory s.entries }) := by
    unfold TreeScript.make
    cases hlookup : s.failingMakes.lookup (Path.ofNames x).text with
    | none => rfl
    | some f =>
      obtain ⟨times, appears⟩ := f
      cases times with
      | zero => rfl
      | succ times =>
        rw [makes_named hp.names hlookup] at h
        cases h
  have hend : ending (tree.makeDirectory p) s = _ :=
    (congrArg (TreeScript.make · s) hp.text).trans hmake
  exact ⟨_, hend, ⟨hs.looks, hs.appears⟩, layout_set hne hp.names rfl, fun _ _ => rfl⟩

/-- After an attempt that failed one failure less is to come. -/
theorem settles_refused (hs : s.Friendly) (hx : ∀ n ∈ x, IsName n) {times : Nat}
    {appears : Option EntryKind}
    (hlookup : s.failingMakes.lookup (Path.ofNames x).text = some ⟨times + 1, appears⟩)
    (hmakes : s'.failingMakes = Table.set (Path.ofNames x).text ⟨times, appears⟩ s.failingMakes)
    (hkinds : s'.failingKinds = s.failingKinds) {there : Bool}
    (hlayout : s'.layout =
      if there then Function.update s.layout x (some .directory) else s.layout) :
    Settles layout makes Friendly s s' x there where
  sound := by
    refine ⟨hkinds.trans hs.looks, fun key f hf => ?_⟩
    by_cases hkey : key = (Path.ofNames x).text
    · rw [hmakes, hkey, Table.lookup_set_self] at hf
      cases hf
      exact hs.appears _ ⟨times + 1, appears⟩ hlookup
    · rw [hmakes, Table.lookup_set_of_ne hkey] at hf
      exact hs.appears key f hf
  layout := hlayout
  script := fun _ hy => makes_elsewhere hx hmakes hy

theorem make_refused {p : Path} (hne : x ≠ []) (hs : s.Friendly) (hp : p.LeadsDown x)
    {r : Refusal} {rest : List Refusal} (h : s.makes x = r :: rest) :
    ∃ s', ending (tree.makeDirectory p) s = (.error r.fault, s') ∧
      Settles layout makes Friendly s s' x r.appears ∧ s'.makes x = rest := by
  have hfailing : ∃ times appears,
      s.failingMakes.lookup (Path.ofNames x).text = some ⟨times + 1, appears⟩ := by
    cases hlookup : s.failingMakes.lookup (Path.ofNames x).text with
    | none => simp [makes, hlookup] at h
    | some f =>
      obtain ⟨times, appears⟩ := f
      cases times with
      | zero =>
        rw [makes_named hp.names hlookup] at h
        cases h
      | succ times => exact ⟨times, appears, rfl⟩
  obtain ⟨times, appears, hlookup⟩ := hfailing
  rw [makes_named hp.names hlookup] at h
  cases h
  obtain ⟨s', hmake, hmakes, hkinds, hlayout⟩ : ∃ s',
      TreeScript.make (Path.ofNames x).text s =
        (.error (.backend s!"cannot mkdir {(Path.ofNames x).text}"), s') ∧
      s'.failingMakes = Table.set (Path.ofNames x).text ⟨times, appears⟩ s.failingMakes ∧
      s'.failingKinds = s.failingKinds ∧
      s'.layout = if times == 0 && appears == some .directory
        then Function.update s.layout x (some .directory) else s.layout := by
    unfold TreeScript.make
    rw [hlookup]
    cases times with
    | succ times => exact ⟨_, rfl, rfl, rfl, layout_same rfl⟩
    | zero =>
      cases appears with
      | none => exact ⟨_, rfl, rfl, rfl, layout_same rfl⟩
      | some kind =>
        cases kind with
        | file => exact absurd rfl (hs.appears _ _ hlookup)
        | directory => exact ⟨_, rfl, rfl, rfl, layout_set hne hp.names rfl⟩
  have hend : ending (tree.makeDirectory p) s = _ :=
    (congrArg (TreeScript.make · s) hp.text).trans hmake
  refine ⟨s', hend, settles_refused hs hp.names hlookup hmakes hkinds hlayout, ?_⟩
  have hhere : s'.failingMakes.lookup (Path.ofNames x).text = some ⟨times, appears⟩ := by
    rw [hmakes, Table.lookup_set_self]
  exact makes_named hp.names hhere

end Steps

/-- Directories fail to be made on a scripted tree as the script says. -/
theorem reluctant : Reluctant layout makes Friendly tree where
  root _ _ := rfl
  kind s p way n hs hp _ := kind_found hs (by simp) hp
  makes s p way n hs hp _ _ h := make_done (by simp) hs hp h
  refuses s p way n r rest hs hp _ _ h := make_refused (by simp) hs hp h
  pause s time hs := ⟨_, rfl, ⟨hs.looks, hs.appears⟩, rfl, rfl⟩

/-- A directory below which one fails four times, the next appears at its second time, and the last
fails once too often. -/
def stubborn : TreeScript where
  entries := [("/a", .directory), ("/f", .file)]
  ghosts := []
  failingMakes := [("/a/b", ⟨4, none⟩), ("/a/b/c", ⟨2, some .directory⟩), ("/a/b/c/d", ⟨5, none⟩)]
  failingKinds := []
  failingLists := []
  failingRemoves := []
  log := []
  slept := 0

theorem stubborn_friendly : stubborn.Friendly where
  looks := rfl
  appears key f h := by
    obtain ⟨before, after, he, -⟩ := List.lookup_eq_some_iff.mp h
    have hall : ∀ f ∈ stubborn.failingMakes, f.2.appears ≠ some .file := by decide
    exact hall (key, f) (by simp [he])

def deep : Path := ⟨some "glusterfs", some "g1", true, ["a", "b", "c", "d"]⟩

theorem stubborn_stops : ∃ fault s' levels,
    ending (tree.mkdirs deep) stubborn = (.error fault, s') ∧
      fault.message = "backend error: cannot mkdir /a/b/c/d" ∧ s'.slept = 310 ∧
      Ascends layout makes deep stubborn s' (.error fault) levels := by
  have hnormal : deep.Normal := Path.leads_names.mpr (by decide)
  obtain ⟨result, s', levels, hend, -, hascends⟩ :=
    reluctant.mkdirs_ascends (p := deep) rfl hnormal stubborn_friendly
  have hfault : (ending (tree.mkdirs deep) stubborn).1.mapError Fault.message =
    .error "backend error: cannot mkdir /a/b/c/d" := by decide +kernel
  have hslept : (ending (tree.mkdirs deep) stubborn).2.slept = 310 := by decide +kernel
  rw [hend] at hfault hslept
  cases result with
  | ok _ => cases hfault
  | error fault =>
    exact ⟨fault, s', levels, hend, Except.error.inj hfault, hslept, hascends⟩

end TreeScript

end VolumeFS
