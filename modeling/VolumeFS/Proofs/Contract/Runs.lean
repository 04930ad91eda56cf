import VolumeFS.Proofs.Contract.Client
import VolumeFS.Proofs.Contract.Mount

/-!
# One contract

A client and a mount of the same address that start with the same contents show
the same for every operation of a run, and have the same contents after it. The
contract leaves nothing open and both fulfil it, so one step keeps the contents
the same, and hence all steps do.
-/

set_option autoImplicit false

namespace VolumeFS

structure Paired (c : Client Run) (t : Mount Run) : Prop where
  authority : c.authority = t.authority
  scheme : c.resolver.scheme = t.resolver.scheme
  direct : t.Direct

structure Mirrors (t : Mount Run) (base : Disk.Place) (w₁ w₂ : World) : Prop where
  volume : w₁.volume.WellFormed
  disk : t.Holds base w₂.disk
  contents : w₂.disk.contents base = w₁.contents

namespace Operation

variable {c : Client Run} {t : Mount Run} (hpair : Paired c t) {base : Disk.Place}
  {w₁ w₂ : World} (h : Mirrors t base w₁ w₂)

include hpair h

theorem step_agrees {op : Operation} (hop : op.Allowed t w₁.contents)
    (hroom : op.Roomy t w₁.contents) :
    Answer.shown (outcome (op.run c) w₁).1 = Answer.shown (outcome (op.run t) w₂).1 ∧
      Mirrors t base (outcome (op.run c) w₁).2 (outcome (op.run t) w₂).2 := by
  have haccepts : c.resolver.accepts = t.resolver.accepts := by
    funext p
    rw [Resolver.accepts, hpair.scheme]
    rfl
  have hlabel : c.label = t.label := by
    funext p
    rw [Client.label, hpair.authority]
    rfl
  by_cases hours : ∀ p ∈ op.paths, c.resolver.accepts p = true
  · obtain ⟨answer₁, w₁', hend₁, hw₁, hmeets₁⟩ := Client.fulfils h.volume hop hours
    obtain ⟨answer₂, w₂', hend₂, hw₂, hmeets₂⟩ := Mount.fulfils hpair.direct h.disk
      (by rwa [h.contents]) (by rwa [h.contents]) (by rwa [← haccepts]) (fun x data hx => by
        rw [h.contents] at hx
        obtain ⟨e, he, hdata⟩ := Client.contents_some hx
        have hlen := h.volume.length _ e he
        rwa [hdata] at hlen)
    dsimp only at hmeets₂
    rw [h.contents, ← hlabel] at hmeets₂
    have hsame := meets_unique c.label hmeets₁ hmeets₂
    rw [hend₁, hend₂]
    exact ⟨congrArg Prod.fst hsame, hw₁, hw₂, (congrArg Prod.snd hsame).symm⟩
  · have husable : ∀ p ∈ op.paths, Usable t (w₂.disk.contents base) p := by
      rw [h.contents]
      exact hop.1
    obtain ⟨reason₁, hend₁⟩ := Client.foreign hours (fun p hp => (hop.1 p hp).absolute) w₁
    obtain ⟨reason₂, hend₂⟩ := Mount.foreign hpair.direct (by rwa [← haccepts]) husable
    rw [hend₁, hend₂]
    exact ⟨rfl, h⟩

omit hpair in
/-- Directories are made where nothing is. -/
theorem step_made {p : Path} (hop : (mkdirs p).Allowed t w₁.contents)
    (hours : c.resolver.accepts p = true) (hfree : w₁.contents p.segments = none) :
    (outcome ((mkdirs p).run c) w₁).2.contents = Tree.made w₁.contents p.segments := by
  obtain ⟨answer, w', hend, -, hmeets⟩ := Client.fulfils h.volume hop (by simpa [paths] using hours)
  dsimp only [Meets] at hmeets
  rw [hfree] at hmeets
  rw [hend]
  exact congrArg Prod.snd hmeets

/-- Each operation of a run shows the same on both, if the system takes the paths that renames
lead to. -/
theorem runs_agree (ops : List Operation)
    (hallowed : Throughout c World.contents (Allowed t) ops w₁)
    (hroomy : Throughout c World.contents (Roomy t) ops w₁) :
    (runs c ops w₁).1.map Answer.shown = (runs t ops w₂).1.map Answer.shown ∧
      Mirrors t base (runs c ops w₁).2 (runs t ops w₂).2 := by
  induction ops generalizing w₁ w₂ with
  | nil => exact ⟨rfl, h⟩
  | cons op rest ih =>
    obtain ⟨hshown, hmirrors⟩ := step_agrees hpair h hallowed.1 hroomy.1
    obtain ⟨hrest, hend⟩ := ih hmirrors hallowed.2 hroomy.2
    exact ⟨congrArg₂ List.cons hshown hrest, hend⟩

omit hpair h in
/-- Runs differ if their third operations do. -/
theorem third_differs {a b op : Operation} {x y : Except String Answer}
    (hx : Answer.shown (outcome (op.run c) (outcome (b.run c) (outcome (a.run c) w₁).2).2).1 = x)
    (hy : Answer.shown (outcome (op.run t) (outcome (b.run t) (outcome (a.run t) w₂).2).2).1 = y)
    (hne : x ≠ y) : (runs c [a, b, op] w₁).1.map Answer.shown ≠
      (runs t [a, b, op] w₂).1.map Answer.shown := by
  intro heq
  simp only [runs_cons, List.map_cons, List.cons.injEq] at heq
  exact hne (hx.symm.trans (heq.2.2.1.trans hy))

/-- Where the path of its target is too long for the system, a rename to a free place is done by
the client alone. -/
theorem rename_differs {p q : Path} (hop : (rename p q).Allowed t w₁.contents)
    (hours : c.resolver.accepts p = true ∧ c.resolver.accepts q = true)
    (hthere : w₁.contents p.segments ≠ none) (hne : target w₁.contents p q ≠ p.segments)
    (hfree : w₁.contents (target w₁.contents p q) = none)
    (hparent : w₁.contents (target w₁.contents p q).dropLast ≠ none)
    (hlong : Disk.pathLimit < (t.localPath (.ofNames (target w₁.contents p q))).utf8ByteSize) :
    Answer.shown (outcome ((rename p q).run c) w₁).1 = .ok .done ∧
      Answer.shown (outcome ((rename p q).run t) w₂).1 = .error "Io" := by
  constructor
  · obtain ⟨answer, w', hend, -, hmeets⟩ :=
      Client.fulfils h.volume hop (by simpa [paths] using hours)
    dsimp only [Meets] at hmeets
    rw [if_neg hthere, if_neg hne, if_neg (fun hnot => hnot hfree), if_neg hparent] at hmeets
    rw [hend]
    exact congrArg Prod.fst hmeets
  · have hscheme : c.resolver.accepts = t.resolver.accepts := by
      funext p
      rw [Resolver.accepts, hpair.scheme]
      rfl
    have hp := hop.1 p (by simp [paths])
    have hq := hop.1 q (by simp [paths])
    rw [hscheme] at hours
    rw [← h.contents] at hp hq hthere hne hlong
    obtain ⟨e, hend⟩ := Mount.rename_long h.disk
      (Mount.enter_outcome hpair.direct.mounted hp.absolute hours.1 hp.outside w₂) hp.fits hp.clear
      (Mount.enter_outcome hpair.direct.mounted hq.absolute hours.2 hq.outside w₂) hq.fits hq.clear
      hthere hop.2.1 hne hlong
    have hrun : outcome ((rename p q).run t) w₂ = (.error (.io e), w₂) :=
      outcome_bind_error hend _
    rw [hrun]
    rfl

end Operation

section Harbour

open Disk Operation

def harbour : World := .ofDisk (.ofDirectories [["mnt"]])

def moored : Mount Run where
  config := .ofBackend .fuse
  phase := .mounted
  resolver := ⟨Path.volumeScheme, .root⟩
  oracle := Mount.commandOracle "h"
  hostname := "h"
  directory := "/mnt"
  authority := "h"

theorem moored_paired : Paired Client.visitor moored := ⟨rfl, rfl, rfl, rfl⟩

theorem harbour_node {x : Place} {a : Node} (h : harbour.disk.node? x = some a) :
    (x = [] ∨ x = ["mnt"]) ∧ a = .directory 0o755 := by
  have hplace : x = [] ∨ x = ["mnt"] := by
    have hkeys : Table.keys harbour.disk.nodes = [[], ["mnt"]] := rfl
    have hmem := mem_keys.2 ⟨a, h⟩
    rw [hkeys] at hmem
    simpa using hmem
  refine ⟨hplace, ?_⟩
  rcases hplace with rfl | rfl <;> exact (Option.some.inj h).symm

theorem harbour_contents (x : List String) :
    harbour.contents x = if x = [] then some .directory else none := by
  split_ifs with hx
  · rw [hx]
    rfl
  · refine Client.contents_none.2 (Volume.find?_none.2 ?_)
    have hkeys : Table.keys harbour.volume.entries = [.root] := rfl
    rw [hkeys]
    simpa [Volume.Key.root] using hx

theorem mnt_entry : EntryName "mnt" := ⟨by decide, by simp, by decide⟩

theorem harbour_mirrors : Mirrors moored ["mnt"] harbour harbour := by
  have hone : ∀ {x : List String} {n : String}, x ++ [n] = ["mnt"] → x = [] ∧ n = "mnt" := by
    intro x n h
    simpa [List.append_eq_singleton_iff] using h
  have hplain : harbour.disk.Plain := by
    refine ⟨⟨⟨_, rfl, rfl⟩, fun x n a h => ?_, fun x n a h => ?_⟩, fun x target h => ?_,
      fun x number h => ?_, fun x y number h => ?_, by decide⟩
    · obtain ⟨h0 | h1, -⟩ := harbour_node h
      · simp at h0
      · obtain ⟨-, rfl⟩ := hone h1
        exact mnt_entry
    · obtain ⟨h0 | h1, -⟩ := harbour_node h
      · simp at h0
      · obtain ⟨rfl, -⟩ := hone h1
        exact ⟨_, rfl, rfl⟩
    · cases (harbour_node h).2
    · cases (harbour_node h).2
    · cases (harbour_node h).2
  have hbelow : ∀ x a, harbour.disk.node? (["mnt"] ++ x) = some a → x = [] := by
    intro x a h
    obtain ⟨h0 | h1, -⟩ := harbour_node h
    · cases h0
    · simpa using h1
  refine ⟨Volume.empty_wellFormed _ _ _, ⟨hplain, ⟨by decide, by simp [moored], by decide, by decide⟩,
    ⟨_, rfl⟩, fun x a h => ?_⟩, funext fun x => ?_⟩
  · rw [hbelow x a h]
    exact ⟨by simp, by decide⟩
  · rw [harbour_contents]
    split_ifs with hx
    · rw [hx]
      rfl
    · rw [Disk.contents_none]
      by_contra hne
      obtain ⟨a, ha⟩ := Option.ne_none_iff_exists'.1 hne
      exact hx (hbelow x a ha)

/-- Among directories, short paths that do not lead to the mounted directory can be used. -/
theorem usable_among {l : Tree.Contents} (hdirs : ∀ y a, l y = some a → a = .directory)
    {x : List String} (hx : ∀ n ∈ x, EntryName n) (hhead : x.head? ≠ some "mnt")
    (hsize : Mount.namesSize x ≤ 4091) : Usable moored l (.ofNames x) where
  absolute := rfl
  normal := Path.leads_names.2 fun n hn => (hx n hn).name
  outside := by
    have hdirectory : moored.directoryPath = .ofNames ["mnt"] := rfl
    rw [hdirectory, Path.startsWith]
    cases x with
    | nil => rfl
    | cons n x =>
      have hne : ¬ "mnt" = n := fun he => hhead (by rw [he]; rfl)
      simp [Path.ofNames, List.isPrefixOf, hne]
  fits := by
    refine ⟨hx, ?_⟩
    have hdirectory : moored.directory.utf8ByteSize = 4 := rfl
    have hsize' := Mount.localPath_size (t := moored) (x := x) (by decide) (by decide)
      (fun n hn => (hx n hn).name)
    rw [hdirectory] at hsize'
    unfold pathLimit
    change (moored.localPath (.ofNames x)).utf8ByteSize ≤ 4095
    omega
  clear := fun y z a _ _ ha => Volume.Content.kind_directory.2 (hdirs y a ha)

theorem made_directories {l : Tree.Contents} (hdirs : ∀ y a, l y = some a → a = .directory)
    (x : List String) : ∀ y a, Tree.made l x y = some a → a = .directory := by
  intro y a ha
  unfold Tree.made at ha
  split_ifs at ha
  · exact (Option.some.inj ha).symm
  · exact hdirs y a ha

theorem harbour_directories : ∀ y a, harbour.contents y = some a → a = .directory := by
  intro y a ha
  rw [harbour_contents] at ha
  split_ifs at ha
  exact (Option.some.inj ha).symm

theorem harbour_made {x : List String} (hx : x ≠ []) (hop : (mkdirs (.ofNames x)).Allowed moored
    harbour.contents) : (outcome ((mkdirs (.ofNames x)).run Client.visitor) harbour).2.contents =
      Tree.made harbour.contents x :=
  step_made harbour_mirrors hop rfl ((harbour_contents x).trans (if_neg hx))

def errand : List Operation :=
  [.mkdirs (.ofNames ["a"]), .rename (.ofNames ["a"]) (.ofNames ["b"])]

theorem errand_agrees : (runs Client.visitor errand harbour).1.map Answer.shown =
    (runs moored errand harbour).1.map Answer.shown := by
  have husable : ∀ {l : Tree.Contents} (n : String), n = "a" ∨ n = "b" →
      (∀ y a, l y = some a → a = .directory) → Usable moored l (.ofNames [n]) := by
    rintro l n (rfl | rfl) hdirs
    · exact usable_among hdirs (by simpa using ⟨by decide, by simp, by decide⟩) (by decide)
        (by decide)
    · exact usable_among hdirs (by simpa using ⟨by decide, by simp, by decide⟩) (by decide)
        (by decide)
  have hfirst : (mkdirs (.ofNames ["a"])).Allowed moored harbour.contents :=
    ⟨by simpa [paths] using husable "a" (.inl rfl) harbour_directories, trivial⟩
  have hmade := harbour_made (by simp) hfirst
  have hdirs := made_directories harbour_directories ["a"]
  have htarget : target (Tree.made harbour.contents ["a"]) (.ofNames ["a"]) (.ofNames ["b"]) =
      ["b"] := rfl
  have hsecond : (rename (.ofNames ["a"]) (.ofNames ["b"])).Allowed moored
      (Tree.made harbour.contents ["a"]) := by
    refine ⟨?_, by decide, fun _ hpre => ?_⟩
    · simpa [paths] using ⟨husable "a" (.inl rfl) hdirs, husable "b" (.inr rfl) hdirs⟩
    · rw [htarget] at hpre
      exact absurd hpre (by decide)
  have hroom : (rename (.ofNames ["a"]) (.ofNames ["b"])).Roomy moored
      (Tree.made harbour.contents ["a"]) := by
    rintro - - y ⟨content, hy⟩
    rw [htarget]
    cases y with
    | nil => exact (husable "b" (.inr rfl) hdirs).fits
    | cons m y =>
      rw [Tree.made, if_neg (by simp [Path.ofNames]), harbour_contents, if_neg (by simp)] at hy
      cases hy
  refine (runs_agree moored_paired harbour_mirrors errand ⟨hfirst, ?_, trivial⟩
    ⟨trivial, ?_, trivial⟩).1
  · rw [hmade]
    exact hsecond
  · rw [hmade]
    exact hroom

def nested (depth : Nat) : List String := List.replicate depth "d"

theorem nested_head {depth : Nat} (h : 0 < depth) (rest : List String) :
    (nested depth ++ rest).head? = some "d" := by
  cases depth with
  | zero => cases h
  | succ depth => rfl

theorem nested_size (depth : Nat) : Mount.namesSize (nested depth) = depth * 2 := by
  induction depth with
  | zero => rfl
  | succ depth ih =>
    have hdeeper : nested (depth + 1) = "d" :: nested depth := rfl
    have hname : "d".utf8ByteSize = 1 := rfl
    rw [hdeeper, Mount.namesSize, ih, hname]
    omega

theorem nested_entries (depth : Nat) : ∀ n ∈ nested depth, EntryName n := by
  intro n hn
  rw [List.eq_of_mem_replicate hn]
  exact ⟨by decide, by simp, by decide⟩

/-- Two directories are made, and one is to go into the other, where its path would be too long for
the system. -/
def crowding : List Operation :=
  [.mkdirs (.ofNames (nested 2045)), .mkdirs (.ofNames ["s"]),
    .rename (.ofNames ["s"]) (.ofNames (nested 2045))]

theorem nested_usable {l : Tree.Contents} (hdirs : ∀ y a, l y = some a → a = .directory) :
    Usable moored l (.ofNames (nested 2045)) ∧ Usable moored l (.ofNames ["s"]) := by
  refine ⟨usable_among hdirs (nested_entries 2045) ?_ (by rw [nested_size]; decide),
    usable_among hdirs (by simpa using ⟨by decide, by simp, by decide⟩) (by decide) (by decide)⟩
  rw [← List.append_nil (nested 2045), nested_head (by decide)]
  decide

theorem nested_apart (rest : List String) : ¬ ["s"] <+: nested 2045 ++ rest := by
  rintro ⟨z, hz⟩
  have hhead : (nested 2045 ++ rest).head? = some "d" := nested_head (by decide) rest
  rw [← hz] at hhead
  simp at hhead

section Crowded

variable {w₁ w₂ : World} (h : Mirrors moored ["mnt"] w₁ w₂)
  (hdirs : ∀ y a, w₁.contents y = some a → a = .directory)
  (hdeep : w₁.contents (nested 2045) = some .directory)

include hdeep in
theorem crowded_target : target w₁.contents (.ofNames ["s"]) (.ofNames (nested 2045)) =
    nested 2045 ++ ["s"] := by
  rw [target_concat (x := []) (n := "s") rfl]
  exact if_pos (Tree.isDirectory_iff.2 ⟨_, hdeep, rfl⟩)

include hdirs hdeep in
theorem crowded_allowed :
    (rename (.ofNames ["s"]) (.ofNames (nested 2045))).Allowed moored w₁.contents := by
  refine ⟨by simpa [paths] using (nested_usable hdirs).symm, by decide, fun _ hpre => ?_⟩
  rw [crowded_target hdeep] at hpre
  exact absurd hpre (nested_apart ["s"])

include h hdirs hdeep in
theorem crowded_differs (hs : w₁.contents ["s"] = some .directory)
    (hfree : w₁.contents (nested 2045 ++ ["s"]) = none) :
    Answer.shown (outcome ((rename (.ofNames ["s"]) (.ofNames (nested 2045))).run Client.visitor)
      w₁).1 = .ok .done ∧
    Answer.shown (outcome ((rename (.ofNames ["s"]) (.ofNames (nested 2045))).run moored) w₂).1 =
      .error "Io" := by
  have htarget := crowded_target hdeep
  refine rename_differs (c := Client.visitor) moored_paired h (crowded_allowed hdirs hdeep)
    ⟨rfl, rfl⟩ ?_ ?_ ?_ ?_ ?_
  · change w₁.contents ["s"] ≠ none
    simp [hs]
  · rw [htarget]
    intro he
    exact nested_apart ["s"] (by rw [he]; exact List.prefix_refl _)
  · rwa [htarget]
  · rw [htarget, List.dropLast_concat, hdeep]
    simp
  · have hsize := Mount.localPath_size (t := moored) (x := nested 2045 ++ ["s"]) (by decide)
      (by decide) (fun n hn => by
        rcases List.mem_append.1 hn with hn | hn
        · exact (nested_entries 2045 n hn).name
        · rw [List.mem_singleton.1 hn]
          decide)
    have hlast : Mount.namesSize ["s"] = 2 := rfl
    have hdirectory : moored.directory.utf8ByteSize = 4 := rfl
    rw [htarget, hsize, Mount.namesSize_append, nested_size, hlast, hdirectory]
    decide

end Crowded

/-- What the two directories of the run leave, before its rename. -/
theorem crowded_contents {depth : Nat} (hdepth : 0 < depth) {l : Tree.Contents}
    (hl : l = Tree.made (Tree.made harbour.contents (nested depth)) ["s"]) :
    (∀ y a, l y = some a → a = .directory) ∧ l (nested depth) = some .directory ∧
      l ["s"] = some .directory ∧ l (nested depth ++ ["s"]) = none := by
  have hlong : ¬ nested depth ++ ["s"] <+: ["s"] := fun hpre => by
    have hlength := hpre.length_le
    simp [nested] at hlength
    omega
  have hdeeper : ¬ nested depth ++ ["s"] <+: nested depth := Tree.below_not_above (by simp)
  rw [hl]
  refine ⟨made_directories (made_directories harbour_directories _) _, ?_,
    if_pos (List.prefix_refl _), ?_⟩
  · rw [Tree.made, Tree.made, if_pos (List.prefix_refl (nested depth)), ite_self]
  · rw [Tree.made, if_neg hlong, Tree.made, if_neg hdeeper, harbour_contents, if_neg (by simp)]

theorem crowding_differs : Paired Client.visitor moored ∧
    Mirrors moored ["mnt"] harbour harbour ∧
    Throughout Client.visitor World.contents (Allowed moored) crowding harbour ∧
    (runs Client.visitor crowding harbour).1.map Answer.shown ≠
      (runs moored crowding harbour).1.map Answer.shown := by
  have hfirst : (mkdirs (.ofNames (nested 2045))).Allowed moored harbour.contents :=
    ⟨by simpa [paths] using (nested_usable harbour_directories).1, trivial⟩
  have hmade := harbour_made (by decide) hfirst
  obtain ⟨-, h₁⟩ := step_agrees moored_paired harbour_mirrors hfirst trivial
  have hdirs₁ := made_directories harbour_directories (nested 2045)
  rw [← hmade] at hdirs₁
  have hsecond : (mkdirs (.ofNames ["s"])).Allowed moored (outcome
      ((mkdirs (.ofNames (nested 2045))).run Client.visitor) harbour).2.contents :=
    ⟨by simpa [paths] using (nested_usable hdirs₁).2, trivial⟩
  have hapart : ¬ ["s"] <+: nested 2045 := by simpa using nested_apart []
  have hmade₂ := step_made (c := Client.visitor) h₁ hsecond rfl (by
    rw [hmade]
    exact (if_neg hapart).trans ((harbour_contents _).trans (if_neg (by decide))))
  rw [hmade] at hmade₂
  obtain ⟨-, h₂⟩ := step_agrees moored_paired h₁ hsecond trivial
  obtain ⟨hdirs, hdeep, hs, hfree⟩ := crowded_contents (by decide) hmade₂
  obtain ⟨hdone, hrefused⟩ := crowded_differs h₂ hdirs hdeep hs hfree
  refine ⟨moored_paired, harbour_mirrors,
    ⟨hfirst, hsecond, crowded_allowed hdirs hdeep, trivial⟩,
    third_differs hdone hrefused (by simp)⟩

end Harbour

end VolumeFS
