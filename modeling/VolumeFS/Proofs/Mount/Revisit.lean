import VolumeFS.Proofs.Mount.Logical

/-!
# Paths seen twice

What a mount hands back for a path, and what some operations go on with, is a
path that was seen from the mounted directory already. To see it again takes
the names of that directory away once more where the path happens to begin with
them, and then the path is another one and has another file. This happens for
no path where the mounted directory is the root of the host, and elsewhere for
just those paths whose names begin with the names of the mounted directory.
-/

set_option autoImplicit false

namespace VolumeFS

namespace Mount

section Settled

variable {m : Type → Type} {t : Mount m}

def fileOf (t : Mount m) (p : Path) : Except Fault String := (t.logical p).map t.localPath

/-- The names do not begin with those of the mounted directory, unless there are none. -/
def Settled (t : Mount m) (q : Path) : Prop := t.top = [] ∨ ¬ t.top <+: q.segments

instance (t : Mount m) (q : Path) : Decidable (t.Settled q) := inferInstanceAs (Decidable (_ ∨ _))

theorem fileOf_logical {p q : Path} (h : t.logical p = .ok q) :
    t.fileOf p = .ok (t.localPath q) := by
  rw [fileOf, h]
  rfl

theorem inward_settled {x : List String} (h : t.Settled (.ofNames x)) : t.inward x = x := by
  unfold inward
  rcases h with htop | hout
  · rw [if_pos (by rw [htop]; exact List.nil_prefix), htop]
    rfl
  · exact if_neg hout

theorem inward_shorter {x : List String} (h : ¬ t.Settled (.ofNames x)) :
    (t.inward x).length < x.length := by
  obtain ⟨htop, hpre⟩ := not_or.1 h
  have hpre : t.top <+: x := not_not.1 hpre
  have hpos := List.length_pos_iff.2 htop
  have hle := hpre.length_le
  rw [inward, if_pos hpre, List.length_drop]
  omega

theorem inward_eq_iff {x : List String} : t.inward x = x ↔ t.Settled (.ofNames x) := by
  constructor
  · intro he
    by_contra hs
    have hlt := inward_shorter hs
    rw [he] at hlt
    exact Nat.lt_irrefl _ hlt
  · exact inward_settled

/-- Names that were taken away do not come back. -/
theorem inward_twice_eq_iff {x : List String} :
    t.inward (t.inward x) = x ↔ t.Settled (.ofNames x) := by
  constructor
  · intro he
    by_contra hs
    have hlt := inward_shorter hs
    have hle := (inward_suffix (t := t) (t.inward x)).length_le
    rw [he] at hle
    omega
  · intro hs
    rw [inward_settled hs, inward_settled hs]

end Settled

section Reached

variable {m : Type → Type} {t t' : Mount m} (hreached : t.Reached) (hrooted : t.Rooted)

include hreached hrooted

/-- A path of names, with or without the qualifier of the mount, is seen by its names. -/
theorem logical_seen {p : Path} (habs : p.absolute = true)
    (hours : p.scheme = none ∨ p.scheme = some Path.volumeScheme) :
    t.logical p = .ok (.ofNames (t.inward p.segments)) := by
  have haccepts : t.resolver.accepts p = true := by
    unfold Resolver.accepts
    rcases hours with h | h <;> rw [h]
    · rfl
    · rw [hreached.scheme]
      rfl
  exact logical_resolved hrooted (Resolver.resolve_absolute habs haccepts)

theorem logical_ofNames (x : List String) :
    t.logical (.ofNames x) = .ok (.ofNames (t.inward x)) :=
  logical_seen hreached hrooted rfl (.inl rfl)

theorem qualify_ofNames (x : List String) :
    t.qualify (.ofNames x) = t.label (.ofNames (t.inward x)) := by
  rw [qualify, logical_ofNames hreached hrooted]

/-- A path with the qualifier of the mount leads where its names do. -/
theorem fileOf_label (x : List String) :
    t.fileOf (t.label (.ofNames x)) = t.fileOf (.ofNames x) := by
  rw [fileOf, fileOf, logical_ofNames hreached hrooted,
    logical_seen hreached hrooted rfl (.inr rfl)]
  rfl

/-- Whether the names `y` lead to the file of the names `x`. -/
theorem fileOf_eq_iff {x y : List String} (hx : ∀ n ∈ x, IsName n) (hy : ∀ n ∈ y, IsName n) :
    t.fileOf (.ofNames y) = .ok (t.localPath (.ofNames x)) ↔ t.inward y = x := by
  rw [fileOf_logical (logical_ofNames hreached hrooted y)]
  constructor
  · intro he
    exact localPath_injective hrooted (inward_names hy) hx (Except.ok.inj he)
  · rintro rfl
    rfl

theorem fileOf_settled {x : List String} (hx : ∀ n ∈ x, IsName n) :
    t.fileOf (.ofNames x) = .ok (t.localPath (.ofNames x)) ↔ t.Settled (.ofNames x) :=
  (fileOf_eq_iff hreached hrooted hx hx).trans inward_eq_iff

theorem fileOf_twice_settled {x : List String} (hx : ∀ n ∈ x, IsName n) :
    t.fileOf (.ofNames (t.inward x)) = .ok (t.localPath (.ofNames x)) ↔ t.Settled (.ofNames x) :=
  (fileOf_eq_iff hreached hrooted hx (inward_names hx)).trans inward_twice_eq_iff

/-- In the working directory that the names `x` were moved to, `x` and `.` lead to where `x` led
before. -/
theorem fileOf_moved {p : Path} {x : List String} (hp : p.Normal)
    (hq : t.logical p = .ok (.ofNames x)) (hmove : t.setWorkingDirectory p = .ok t') :
    t'.resolver.workingDirectory = .ofNames x ∧
      t'.fileOf (.ofNames x) = t.fileOf (.ofNames x) ∧
      t'.fileOf .here = t.fileOf (.ofNames x) := by
  have hreached' := Reached.move hreached hp hmove
  obtain ⟨q, resolver, hq', hresolver, rfl⟩ := setWorkingDirectory_moved hmove
  obtain rfl : Path.ofNames x = q := Except.ok.inj (hq.symm.trans hq')
  have hdirectory : resolver.workingDirectory = .ofNames x := by
    unfold Resolver.setWorkingDirectory at hresolver
    rw [Resolver.resolve_absolute rfl rfl] at hresolver
    cases hresolver
    rfl
  have hhere : Mount.logical { t with resolver } .here = .ok (.ofNames (t.inward x)) := by
    have hres : resolver.resolve .here = .ok (.ofNames x) := by
      rw [resolver.resolve_here, hdirectory]
    exact logical_resolved (t := { t with resolver }) hrooted hres
  refine ⟨hdirectory, ?_, ?_⟩
  · rw [fileOf_logical (logical_ofNames hreached' hrooted x),
      fileOf_logical (logical_ofNames hreached hrooted x)]
    rfl
  · rw [fileOf_logical hhere, fileOf_logical (logical_ofNames hreached hrooted x)]
    rfl

end Reached

section Operations

variable {t : Mount Run} {p q : Path}

theorem status_path (hq : t.logical p = .ok q) :
    Returns (fun s => s.path = t.label q) (t.status p) := by
  unfold Mount.status
  refine returns_enter hq ?_
  refine returns_last fun found => ?_
  refine returns_pure ?_
  unfold statusOf
  split_ifs <;> rfl

theorem openFile_path (hq : t.logical p = .ok q) :
    Returns (fun s => s.path = t.qualify q) (t.openFile p) := by
  unfold Mount.openFile
  refine returns_enter hq ?_
  refine returns_last fun found => ?_
  dsimp only
  split_ifs with hdir
  · exact returns_bind (Q := fun _ => False) (returns_throw _) fun _ => False.elim
  · refine returns_last fun brick => ?_
    refine returns_last fun reader => ?_
    rcases reader with _ | reader
    · exact returns_last fun _ => returns_pure rfl
    · exact returns_pure rfl

theorem create_path (hq : t.logical p = .ok q) (options : CreateOptions) :
    Returns (fun s => s.path = t.qualify q) (t.create p options) := by
  unfold Mount.create
  refine returns_enter hq ?_
  refine returns_last fun _ => ?_
  refine returns_last fun _ => ?_
  refine returns_last fun writer => ?_
  dsimp only
  rcases options.permission with _ | permission
  · exact returns_pure rfl
  · exact returns_last fun _ => returns_pure rfl

theorem mkdirs_mode {again : Path} (hq : t.logical p = .ok q) (hagain : t.logical q = .ok again)
    (permission : Permission) {w w' : World}
    (hmade : outcome (t.mkdirs p none) w = (.ok (), w')) :
    outcome (t.mkdirs p (some permission)) w =
      outcome (naming again.text (DiskAccess.setMode (t.localPath again) permission.mode)) w' := by
  by_cases hphase : t.phase = .mounted
  · have henter := enter_seen hphase hq w
    unfold Mount.mkdirs at hmade ⊢
    rw [outcome_bind_ok henter] at hmade ⊢
    have hdone : outcome (t.tree.mkdirs q) w = (.ok (), w') := by
      obtain ⟨fault, hfault, -⟩ | ⟨a, between, hrun, hrest⟩ := outcome_bind_cases hmade
      · cases hfault
      · cases hrest
        exact hrun
    rw [outcome_bind_ok hdone]
    show outcome (t.setPermission q permission) w' = _
    unfold Mount.setPermission
    rw [outcome_bind_ok (enter_seen hphase hagain w')]
  · obtain ⟨reason, hend⟩ := enter_unmounted hphase p w
    unfold Mount.mkdirs at hmade
    rw [outcome_bind_error hend] at hmade
    cases hmade

theorem loadOwnership_seen {s : Status} (hphase : t.phase = .mounted)
    (hq : t.logical s.path.unqualified = .ok q) (hunknown : s.ownership.loaded = false)
    (w : World) :
    outcome (t.loadOwnership s) w =
      outcome (do return { s with ownership := ← Shell.ownership (t.localPath q) }) w := by
  unfold Mount.loadOwnership
  rw [if_neg (by simp [hunknown]), outcome_bind_ok (enter_seen hphase hq w)]

theorem blockLocations_seen {s : Status} {start length start' length' : UInt64}
    (hphase : t.phase = .mounted) (hq : t.logical s.path.unqualified = .ok q)
    (hrange : Offset.clampRange s.length start length = some (start', length')) (w : World) :
    outcome (t.blockLocations s start length) w =
      outcome (orElseOf (t.oracle.locations (t.localPath q) start' length') []) w := by
  unfold Mount.blockLocations
  rw [outcome_bind_ok (requireMounted_outcome hphase w), hrange]
  dsimp only
  rw [hq, outcome_bind_ok (outcome_of_except _ w)]

/-- What becomes of the path `p` that was seen as `q` wherever it is seen again: a result leads to
the file of `p` if and only if the names of `q` are settled. -/
structure Revisited (t : Mount Run) (p q again : Path) : Prop where
  seen : t.logical q = .ok again
  same : again = q ↔ t.Settled q
  file : t.localPath again = t.localPath q ↔ t.Settled q
  status : Returns (fun s => (t.fileOf s.path = t.fileOf p ↔ t.Settled q) ∧
    (t.fileOf s.path.unqualified = t.fileOf p ↔ t.Settled q)) (t.status p)
  openFile : Returns (fun s => t.fileOf s.path = t.fileOf p ↔ t.Settled q) (t.openFile p)
  create : ∀ options,
    Returns (fun s => t.fileOf s.path = t.fileOf p ↔ t.Settled q) (t.create p options)
  /-- The new working directory, by its path and by `.`. -/
  directory : ∀ t', t.setWorkingDirectory p = .ok t' →
    (t'.fileOf t'.resolver.workingDirectory = t.fileOf p ↔ t.Settled q) ∧
    (t'.fileOf .here = t.fileOf p ↔ t.Settled q)
  /-- The mode that a new directory is made with goes to the file of the path seen again. -/
  mkdirs : ∀ permission w w', outcome (t.mkdirs p none) w = (.ok (), w') →
    outcome (t.mkdirs p (some permission)) w =
      outcome (naming again.text (DiskAccess.setMode (t.localPath again) permission.mode)) w'
  /-- So does the question who owns it, -/
  loadOwnership : ∀ s w, t.phase = .mounted → s.path = t.label q → s.ownership.loaded = false →
    outcome (t.loadOwnership s) w =
      outcome (do return { s with ownership := ← Shell.ownership (t.localPath again) }) w
  /-- and the question where it lies. -/
  blockLocations : ∀ s w start length start' length', t.phase = .mounted → s.path = t.label q →
    Offset.clampRange s.length start length = some (start', length') →
    outcome (t.blockLocations s start length) w =
      outcome (orElseOf (t.oracle.locations (t.localPath again) start' length') []) w

/-- Seeing a path again is seeing the same path only where the names are settled. -/
theorem revisited (hreached : t.Reached) (hrooted : t.Rooted) (hp : p.Normal)
    (hq : t.logical p = .ok q) : ∃ again, t.Revisited p q again := by
  obtain ⟨x, rfl, hx⟩ := logical_names hreached.sound hp hq
  have hfile := fileOf_logical hq
  have hagain := logical_ofNames hreached hrooted x
  have hsettled := fileOf_settled hreached hrooted hx
  have htwice := fileOf_twice_settled hreached hrooted hx
  rw [← hfile] at hsettled htwice
  have hback : ∀ {s : Status}, s.path = t.label (.ofNames x) →
      t.logical s.path.unqualified = .ok (.ofNames (t.inward x)) := by
    intro s hs
    rw [hs]
    exact hagain
  have hlabel : t.fileOf (t.label (.ofNames x)) = t.fileOf p ↔ t.Settled (.ofNames x) := by
    rwa [fileOf_label hreached hrooted]
  have hqualified : t.fileOf (t.qualify (.ofNames x)) = t.fileOf p ↔ t.Settled (.ofNames x) := by
    rwa [qualify_ofNames hreached hrooted, fileOf_label hreached hrooted]
  refine ⟨.ofNames (t.inward x), ?_⟩
  constructor
  case seen => exact hagain
  case same => exact Path.ofNames_injective.eq_iff.trans inward_eq_iff
  case file =>
    rw [← inward_eq_iff]
    exact ⟨localPath_injective hrooted (inward_names hx) hx, fun he => by rw [he]⟩
  case status =>
    intro w w' s hs
    rw [status_path hq hs]
    exact ⟨hlabel, hsettled⟩
  case openFile =>
    intro w w' s hs
    rw [openFile_path hq hs]
    exact hqualified
  case create =>
    intro options w w' s hs
    rw [create_path hq options hs]
    exact hqualified
  case directory =>
    intro t' hmove
    obtain ⟨hdirectory, hnames, hhere⟩ := fileOf_moved hreached hrooted hp hq hmove
    rw [hdirectory, hnames, hhere]
    exact ⟨hsettled, hsettled⟩
  case mkdirs =>
    intro permission w w' hmade
    exact mkdirs_mode hq hagain permission hmade
  case loadOwnership =>
    intro s w hphase hs hunknown
    exact loadOwnership_seen hphase (hback hs) hunknown w
  case blockLocations =>
    intro s w start length start' length' hphase hs hrange
    exact blockLocations_seen hphase (hback hs) hrange w

theorem doubled_revisited : ∃ again,
    (anchored "/m").Revisited (.ofNames ["m", "m", "a"]) (.ofNames ["m", "a"]) again ∧
    again ≠ .ofNames ["m", "a"] := by
  have hp : (Path.ofNames ["m", "m", "a"]).Normal := Path.leads_names.2 (by decide)
  have hq : (anchored "/m").logical (.ofNames ["m", "m", "a"]) = .ok (.ofNames ["m", "a"]) := rfl
  have hrooted : (anchored "/m").Rooted := rfl
  have hmoving : ¬ (anchored "/m").Settled (.ofNames ["m", "a"]) := by decide
  obtain ⟨again, hagain⟩ := revisited (.ofConfig _ _ _) hrooted hp hq
  exact ⟨again, hagain, fun he => hmoving (hagain.same.1 he)⟩

/-- The file `/m/a` of a volume at `/m` is taken for the file `/a` when its path is seen again. -/
theorem doubled_differs : ∃ p q,
    Path.parse "/m/m/a" = .ok p ∧ (anchored "/m").logical p = .ok q ∧
    (anchored "/m").logical q ≠ .ok q ∧ (anchored "/m").fileOf p = .ok "/m/m/a" ∧
    (anchored "/m").fileOf q = .ok "/m/a" := by
  have hq : (anchored "/m").logical (.ofNames ["m", "a"]) = .ok (.ofNames ["a"]) := rfl
  refine ⟨.ofNames ["m", "m", "a"], .ofNames ["m", "a"], rfl, rfl, ?_, rfl, rfl⟩
  rw [hq]
  intro he
  exact absurd (Path.ofNames_injective (Except.ok.inj he)) (by decide)

end Operations

end Mount

end VolumeFS
