import VolumeFS.Proofs.Tree.Reluctant

/-!
# Making directories as far as they can be made

On a reluctant tree the way down to a place is made level by level. All its
directories are there in the end, unless a file is met or a level fails too
often; then exactly those above that level are. A record of the run shows that
no directory is tried more than five times, that none is tried before the one
above it is there, and how long is waited in between.
-/

set_option autoImplicit false

namespace VolumeFS.Tree

section Climb

variable {σ : Type} (layout : σ → Layout EntryKind) (script : σ → List String → List Refusal)
  (Sound : σ → Prop)

/-- The attempts at a place that was missing at first, each made in the directory above it. -/
structure Level.Missing (s₀ : σ) (l : Level σ) (way : List String) (n : String) : Prop where
  place : l.place = way ++ [n]
  missing : layout s₀ (way ++ [n]) = none
  count : l.states.length = (tried (script s₀ (way ++ [n])) retries).1
  ready : ∀ s ∈ l.states, layout s way = some .directory ∧ layout s (way ++ [n]) = none

/-- How making the directories down to a place goes on from one of them: how it ends, the last
directory that is there then, and the attempts. -/
inductive Climbs (p : Path) (s₀ : σ) : List String → List String → Except Fault Unit →
    List String → List (Level σ) → Prop
  | top {way : List String} : Climbs p s₀ way [] (.ok ()) way []
  | file {way rest : List String} {n : String} : layout s₀ (way ++ [n]) = some .file →
      Climbs p s₀ way (n :: rest)
        (.error (.alreadyExists
          s!"{(p.withNames (way ++ [n])).text} exists and is not a directory")) way []
  | refused {way rest : List String} {n : String} {l : Level σ} {fault : Fault} :
      l.Missing layout script s₀ way n →
      (tried (script s₀ (way ++ [n])) retries).2 = some fault →
      Climbs p s₀ way (n :: rest) (.error fault) way [l]
  | there {way rest stop : List String} {n : String} {result : Except Fault Unit}
      {levels : List (Level σ)} : layout s₀ (way ++ [n]) = some .directory →
      Climbs p s₀ (way ++ [n]) rest result stop levels →
      Climbs p s₀ way (n :: rest) result stop levels
  | made {way rest stop : List String} {n : String} {l : Level σ} {result : Except Fault Unit}
      {levels : List (Level σ)} : l.Missing layout script s₀ way n →
      (tried (script s₀ (way ++ [n])) retries).2 = none →
      Climbs p s₀ (way ++ [n]) rest result stop levels →
      Climbs p s₀ way (n :: rest) result stop (l :: levels)

/-- The directories down to a place are there: those that were missing can be made and were, and
nothing else was changed. -/
structure Reached (s₀ s : σ) (way : List String) : Prop where
  sound : Sound s
  gained : ∀ y, layout s y =
    if layout s₀ y = none ∧ y <+: way then some .directory else layout s₀ y
  passed : ∀ y, y <+: way → layout s₀ y = some .directory ∨
    layout s₀ y = none ∧ (tried (script s₀ y) retries).2 = none

structure Gained (s s' : σ) (way : List String) : Prop where
  changed : ∀ y, layout s' y =
    if layout s y = none ∧ y <+: way then some .directory else layout s y
  there : ∀ y, y <+: way → layout s' y = some .directory

/-- A level with at most five attempts at a missing directory, none before the directory above it is
there, and a wait after each of them but the last. -/
structure Level.Patient (p : Path) (s : σ) (l : Level σ) : Prop where
  place : l.place <+: p.segments
  missing : layout s l.place = none
  attempts : 1 ≤ l.states.length ∧ l.states.length ≤ 5
  parent : ∀ b ∈ l.states, layout b l.place.dropLast = some .directory
  waits : waited (l.steps p) = ((List.range (l.states.length - 1)).map fun i => 10 * 2 ^ i).sum
  bound : waited (l.steps p) ≤ 150

/-- All that is promised of making the directories down to a path: when they are there in the end,
what was made, why it failed, and how often each was tried. -/
structure Ascends (p : Path) (s s' : σ) (result : Except Fault Unit) (levels : List (Level σ)) :
    Prop where
  succeeds : result = .ok () ↔ ∀ y, y <+: p.segments → layout s y ≠ some .file ∧
    (layout s y = none → (script s y).length ≤ 4 ∨
      ∃ i r, i < 5 ∧ (script s y)[i]? = some r ∧ r.appears = true)
  gained : result = .ok () → Gained layout s s' p.segments
  stopped : ∀ fault, result = .error fault → ∃ way n, way ++ [n] <+: p.segments ∧
    Gained layout s s' way ∧
    (layout s (way ++ [n]) = some .file ∧ fault = .alreadyExists
        s!"{(p.withNames (way ++ [n])).text} exists and is not a directory" ∨
      layout s (way ++ [n]) = none ∧
        ∃ r, (script s (way ++ [n]))[4]? = some r ∧ r.appears = false ∧ fault = r.fault)
  order : levels.Pairwise fun l m => l.place <+: m.place ∧ l.place ≠ m.place
  patient : ∀ l ∈ levels, l.Patient layout p s

end Climb

section Reached

variable {σ : Type} {layout : σ → Layout EntryKind} {script : σ → List String → List Refusal}
  {Sound : σ → Prop} {s₀ s s' : σ} {way : List String} {n : String}
  (hr : Reached layout script Sound s₀ s way)

include hr

theorem Reached.directory {y : List String} (hy : y <+: way) : layout s y = some .directory := by
  rw [hr.gained]
  obtain hthere | ⟨hnone, -⟩ := hr.passed y hy
  · simp [hthere]
  · simp [hnone, hy]

theorem Reached.ahead : layout s (way ++ [n]) = layout s₀ (way ++ [n]) := by
  rw [hr.gained, if_neg fun hc => below_not_above (by simp) hc.2]

theorem Reached.there (h : layout s₀ (way ++ [n]) = some .directory) :
    Reached layout script Sound s₀ s (way ++ [n]) where
  sound := hr.sound
  gained y := by
    by_cases hy : y = way ++ [n]
    · simp [hr.gained, hy, h]
    · simp [hr.gained, List.prefix_concat_iff, hy]
  passed y hy := by
    rcases List.prefix_concat_iff.mp hy with rfl | hy
    · exact .inl h
    · exact hr.passed y hy

theorem Reached.made (hnone : layout s₀ (way ++ [n]) = none)
    (htried : (tried (script s₀ (way ++ [n])) retries).2 = none)
    (h : Settles layout script Sound s s' (way ++ [n]) true) :
    Reached layout script Sound s₀ s' (way ++ [n]) where
  sound := h.sound
  gained y := by
    by_cases hy : y = way ++ [n]
    · simp [hy, h.here, hnone]
    · simp [h.elsewhere hy, hr.gained y, List.prefix_concat_iff, hy]
  passed y hy := by
    rcases List.prefix_concat_iff.mp hy with rfl | hy
    · exact .inr ⟨hnone, htried⟩
    · exact hr.passed y hy

theorem Reached.refused (h : Settles layout script Sound s s' (way ++ [n]) false) :
    Reached layout script Sound s₀ s' way where
  sound := h.sound
  gained y := by
    rw [h.layout]
    exact hr.gained y
  passed := hr.passed

end Reached

namespace Climbs

variable {σ : Type} {layout : σ → Layout EntryKind} {script : σ → List String → List Refusal}
  {p : Path} {s₀ : σ} {way rest stop : List String} {result : Except Fault Unit}
  {levels : List (Level σ)} (h : Climbs layout script p s₀ way rest result stop levels)

include h

/-- It ends at the top, or below a file or a directory that cannot be made. -/
theorem ends : (result = .ok () ∧ stop = way ++ rest) ∨
    ∃ n fault, stop ++ [n] <+: way ++ rest ∧ result = .error fault ∧
      (layout s₀ (stop ++ [n]) = some .file ∧ fault = .alreadyExists
          s!"{(p.withNames (stop ++ [n])).text} exists and is not a directory" ∨
        layout s₀ (stop ++ [n]) = none ∧
          (tried (script s₀ (stop ++ [n])) retries).2 = some fault) := by
  induction h with
  | top => simp
  | @file way rest n hfile =>
    refine .inr ⟨n, _, ?_, rfl, .inl ⟨hfile, rfl⟩⟩
    exact ⟨rest, by simp⟩
  | @refused way rest n l fault hmissing htried =>
    refine .inr ⟨n, fault, ?_, rfl, .inr ⟨hmissing.missing, htried⟩⟩
    exact ⟨rest, by simp⟩
  | there _ _ ih => simpa using ih
  | made _ _ _ ih => simpa using ih

/-- Each place is tried at one level, the outermost first. -/
theorem levels_order :
    (∀ l ∈ levels, ∃ y n, way <+: y ∧ y ++ [n] <+: way ++ rest ∧ l.Missing layout script s₀ y n) ∧
      levels.Pairwise fun l m => l.place <+: m.place ∧ l.place ≠ m.place := by
  induction h with
  | top => simp
  | file _ => simp
  | @refused way rest n l fault hmissing _ =>
    refine ⟨?_, List.pairwise_singleton _ _⟩
    rw [List.forall_mem_singleton]
    exact ⟨way, n, List.prefix_rfl, ⟨rest, by simp⟩, hmissing⟩
  | @there way rest stop n result levels _ _ ih =>
    refine ⟨fun l hl => ?_, ih.2⟩
    obtain ⟨y, m, hy, hm, hl⟩ := ih.1 l hl
    exact ⟨y, m, (List.prefix_append _ _).trans hy, by simpa using hm, hl⟩
  | @made way rest stop n l result levels hmissing _ _ ih =>
    constructor
    · rw [List.forall_mem_cons]
      refine ⟨⟨way, n, List.prefix_rfl, ⟨rest, by simp⟩, hmissing⟩, fun l hl => ?_⟩
      obtain ⟨y, m, hy, hm, hl⟩ := ih.1 l hl
      exact ⟨y, m, (List.prefix_append _ _).trans hy, by simpa using hm, hl⟩
    · refine List.Pairwise.cons (fun m hm => ?_) ih.2
      obtain ⟨y, k, hy, -, hm⟩ := ih.1 m hm
      rw [hmissing.place, hm.place]
      refine ⟨hy.trans (List.prefix_append _ _), fun he => ?_⟩
      rw [← (List.append_inj' he rfl).1] at hy
      exact below_not_above (by simp) hy

end Climbs

section Promises

variable {σ : Type} {layout : σ → Layout EntryKind} {script : σ → List String → List Refusal}
  {Sound : σ → Prop} {p : Path} {s s' : σ} {way stop : List String} {n : String}
  {result : Except Fault Unit} {levels : List (Level σ)}

/-- Each wait of a level is twice as long as the one before. -/
theorem Level.waited_steps {l : Level σ} (h : l.states.length ≤ 5) (p : Path) :
    waited (l.steps p) = ((List.range (l.states.length - 1)).map fun i => 10 * 2 ^ i).sum := by
  unfold Level.steps
  rw [waited_trying]
  congr 1
  apply List.map_congr_left
  intro i hi
  have hlast : i ≤ 4 := by
    have := List.mem_range.mp hi
    omega
  rw [Nat.zero_add, delay, Nat.min_eq_left hlast]
  rfl

theorem Level.Missing.patient {l : Level σ} (h : l.Missing layout script s way n)
    (hwithin : way ++ [n] <+: p.segments) : l.Patient layout p s where
  place := h.place ▸ hwithin
  missing := h.place ▸ h.missing
  attempts := by
    rw [h.count]
    exact tried_count _ retries
  parent b hb := by
    rw [h.place, List.dropLast_concat]
    exact (h.ready b hb).1
  waits := by
    apply l.waited_steps
    rw [h.count]
    exact (tried_count _ retries).2
  bound := by
    have hsum : ∀ k ≤ 4, ((List.range k).map fun i => 10 * 2 ^ i).sum ≤ 150 := by decide
    have hmost : l.states.length ≤ 5 := by
      rw [h.count]
      exact (tried_count _ retries).2
    rw [l.waited_steps hmost]
    apply hsum
    omega

theorem Reached.isGained (hr : Reached layout script Sound s s' way) : Gained layout s s' way where
  changed := hr.gained
  there := fun _ hy => hr.directory hy

/-- What was met on the way and the state it leads to tell all that is promised. -/
theorem Climbs.ascends (h : Climbs layout script p s [] p.segments result stop levels)
    (hr : Reached layout script Sound s s' stop) :
    Ascends layout script p s s' result levels := by
  obtain ⟨hlevels, horder⟩ := h.levels_order
  have hpatient : ∀ l ∈ levels, l.Patient layout p s := by
    intro l hl
    obtain ⟨y, n, -, hwithin, hmissing⟩ := hlevels l hl
    exact hmissing.patient hwithin
  have hends := h.ends
  rw [List.nil_append] at hends
  obtain ⟨rfl, rfl⟩ | ⟨n, fault, hwithin, rfl, hwhy⟩ := hends
  · refine ⟨⟨fun _ y hy => ?_, fun _ => rfl⟩, fun _ => hr.isGained, ?_, horder, hpatient⟩
    · obtain hthere | ⟨hnone, htried⟩ := hr.passed y hy
      · simp [hthere]
      · exact ⟨by simp [hnone], fun _ => (tried_retries _).mp htried⟩
    · intro fault he
      cases he
  · refine ⟨⟨nofun, fun hall => ?_⟩, nofun, ?_, horder, hpatient⟩
    · obtain ⟨hfile, hmissing⟩ := hall _ hwithin
      obtain ⟨hf, -⟩ | ⟨hnone, htried⟩ := hwhy
      · exact absurd hf hfile
      · rw [(tried_retries _).mpr (hmissing hnone)] at htried
        cases htried
    · rintro _ ⟨⟩
      refine ⟨stop, n, hwithin, hr.isGained, ?_⟩
      obtain hfile | ⟨hnone, htried⟩ := hwhy
      · exact .inl hfile
      · exact .inr ⟨hnone, tried_some htried⟩

end Promises

namespace Reluctant

variable {σ : Type} {t : Tree (StateM σ)} {layout : σ → Layout EntryKind}
  {script : σ → List String → List Refusal} {Sound : σ → Prop}
  (h : Reluctant layout script Sound t)

include h

theorem reached_root {s : σ} (hs : Sound s) : Reached layout script Sound s s [] := by
  have hroot := h.root s hs
  refine ⟨hs, fun y => ?_, fun y hy => ?_⟩
  · by_cases hy : y = []
    · simp [hy, hroot]
    · simp [hy]
  · rw [List.prefix_nil.mp hy]
    exact .inl hroot

/-- The attempts at the next place, where that was missing. -/
theorem level_tried {p : Path} {s₀ s : σ} {way : List String} {n : String}
    (hp : (p.withNames (way ++ [n])).LeadsDown (way ++ [n]))
    (hr : Reached layout script Sound s₀ s way) (hmissing : layout s₀ (way ++ [n]) = none)
    (hscript : script s (way ++ [n]) = script s₀ (way ++ [n])) (record : List (Step σ)) :
    ∃ s', ∃ l : Level σ,
      ending (t.recorded.makeTrying (p.withNames (way ++ [n])) 0 retries) (s, record) =
        (verdict (tried (script s₀ (way ++ [n])) retries).2, s', record ++ l.steps p) ∧
      l.Missing layout script s₀ way n ∧
      Settles layout script Sound s s' (way ++ [n])
        (tried (script s₀ (way ++ [n])) retries).2.isNone := by
  obtain ⟨s', states, hend, hsettles, hlength, hstates⟩ :=
    h.makeTrying_ending hp retries 0 hr.sound (hr.directory List.prefix_rfl)
      (hr.ahead.trans hmissing) record
  rw [hscript] at hend hsettles hlength
  exact ⟨s', ⟨way ++ [n], states⟩, hend, ⟨rfl, hmissing, hlength, hstates⟩, hsettles⟩

/-- One level after the other is there, or is made, until the way ends or a level cannot be
passed. -/
theorem makeAll_climbs {p : Path} {s₀ s : σ} (rest way : List String)
    (hp : p.LeadsDown (way ++ rest)) (hr : Reached layout script Sound s₀ s way)
    (hscript : ∀ y, ¬ y <+: way → script s y = script s₀ y) (record : List (Step σ)) :
    ∃ result s' stop levels,
      ending (t.recorded.makeAll ((Path.descent way rest).map fun q => p.withNames q.segments))
          (s, record) = (result, s', record ++ levels.flatMap (Level.steps p)) ∧
        Climbs layout script p s₀ way rest result stop levels ∧
        Reached layout script Sound s₀ s' stop := by
  induction rest generalizing way s record with
  | nil =>
    refine ⟨.ok (), s, way, [], ?_, .top, hr⟩
    rw [List.flatMap_nil, List.append_nil]
    rfl
  | cons n rest ih =>
    have hsplit : way ++ n :: rest = (way ++ [n]) ++ rest := by simp
    rw [hsplit] at hp
    have hup : (p.withNames (way ++ [n])).LeadsDown (way ++ [n]) := hp.upper
    have hkind := h.kind s _ way n hr.sound hup (hr.directory List.prefix_rfl)
    rw [hr.ahead] at hkind
    have hdescent : ((Path.descent way (n :: rest)).map fun q => p.withNames q.segments) =
      p.withNames (way ++ [n]) ::
        (Path.descent (way ++ [n]) rest).map fun q => p.withNames q.segments := rfl
    rw [hdescent, makeAll, ending_bind_ok (recorded_kind hkind)]
    cases hfound : layout s₀ (way ++ [n]) with
    | some kind =>
      cases kind with
      | file =>
        refine ⟨_, s, way, [], ?_, .file hfound, hr⟩
        rw [List.flatMap_nil, List.append_nil]
        rfl
      | directory =>
        have hbelow : ∀ y, ¬ y <+: way ++ [n] → script s y = script s₀ y := fun y hy =>
          hscript y fun hwithin => hy (hwithin.trans (List.prefix_append _ _))
        obtain ⟨result, s', stop, levels, hend, hclimbs, hr'⟩ :=
          ih (way ++ [n]) hp (hr.there hfound) hbelow record
        exact ⟨result, s', stop, levels, hend, .there hfound hclimbs, hr'⟩
    | none =>
      obtain ⟨s₁, l, htrying, hmissing, hsettles⟩ :=
        h.level_tried hup hr hfound (hscript _ (below_not_above (by simp))) record
      show ∃ result s' stop levels, ending (t.recorded.makeTrying _ 0 retries >>= _) _ = _ ∧ _
      cases htried : (tried (script s₀ (way ++ [n])) retries).2 with
      | some fault =>
        rw [htried] at htrying hsettles
        refine ⟨.error fault, s₁, way, [l], ?_, .refused hmissing htried, hr.refused hsettles⟩
        rw [ending_bind_error htrying, List.flatMap_singleton]
      | none =>
        rw [htried] at htrying hsettles
        have hbelow : ∀ y, ¬ y <+: way ++ [n] → script s₁ y = script s₀ y := by
          intro y hy
          rw [hsettles.script y, hscript y]
          · exact fun hwithin => hy (hwithin.trans (List.prefix_append _ _))
          · exact fun he => hy (he ▸ List.prefix_rfl)
        obtain ⟨result, s', stop, levels, hend, hclimbs, hr'⟩ :=
          ih (way ++ [n]) hp (hr.made hfound htried hsettles) hbelow (record ++ l.steps p)
        refine ⟨result, s', stop, l :: levels, ?_, .made hmissing htried hclimbs, hr'⟩
        rw [ending_bind_ok htrying, hend, List.flatMap_cons, List.append_assoc]

/-- Directories are made just as far as they can be, and none is tried too often or too early. -/
theorem mkdirs_ascends {p : Path} (habsolute : p.absolute = true) (hnormal : p.Normal) {s : σ}
    (hs : Sound s) : ∃ result s' levels, ending (t.mkdirs p) s = (result, s') ∧
      ending (t.recorded.mkdirs p) (s, []) = (result, s', levels.flatMap (Level.steps p)) ∧
      Ascends layout script p s s' result levels := by
  have hnames : ∀ n ∈ p.segments, IsName n := by
    apply Path.leads_names.mp
    rw [← habsolute]
    exact hnormal
  obtain ⟨result, s', stop, levels, hend, hclimbs, hreached⟩ :=
    h.makeAll_climbs p.segments [] ⟨habsolute, rfl, hnames⟩ (h.reached_root hs) (fun _ _ => rfl) []
  rw [← Path.lineage_descent, List.nil_append] at hend
  obtain ⟨record, hforget⟩ := t.forgets_mkdirs p s []
  have hplain : ending (t.mkdirs p) s = (result, s') := by
    rw [show ending (t.recorded.mkdirs p) (s, []) = _ from hend] at hforget
    simp only [Prod.mk.injEq] at hforget
    exact Prod.ext hforget.1.symm hforget.2.1.symm
  exact ⟨result, s', levels, hplain, hend, hclimbs.ascends hreached⟩

end Reluctant

end VolumeFS.Tree
