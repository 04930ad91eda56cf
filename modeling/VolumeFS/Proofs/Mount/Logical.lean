import VolumeFS.Proofs.Mount.Path
import VolumeFS.Proofs.Path.Normal
import VolumeFS.Proofs.Run

/-!
# Paths seen through a mount

A mount turns every path that it accepts into one that leads down from the root
of the volume, and puts those names below the mounted directory. As none of the
names is empty, a dot, two dots or holds a slash, nothing leads out of that
directory; and the text of the file, read as a path, is the names of the
directory and then those of the path.
-/

set_option autoImplicit false

namespace VolumeFS

namespace Mount

variable {m : Type → Type} {t t' : Mount m}

def Rooted (t : Mount m) : Prop := t.directory.toList.head? = some '/'

def top (t : Mount m) : List String := t.directoryPath.segments

/-- What is left of the names below the mounted directory, or all of them elsewhere. -/
def inward (t : Mount m) (x : List String) : List String :=
  if t.top <+: x then x.drop t.top.length else x

theorem inward_below (x : List String) : t.inward (t.top ++ x) = x := by
  rw [inward, if_pos (List.prefix_append _ _), List.drop_left]

theorem inward_suffix (x : List String) : t.inward x <:+ x := by
  unfold inward
  split_ifs
  · exact List.drop_suffix _ _
  · exact List.suffix_refl x

theorem inward_names {x : List String} (hx : ∀ n ∈ x, IsName n) : ∀ n ∈ t.inward x, IsName n :=
  fun n hn => hx n ((inward_suffix x).subset hn)

section Rooted

variable (h : t.Rooted)

include h

theorem Rooted.ne : t.directory ≠ "" := by
  intro h0
  rw [Rooted, h0] at h
  cases h

theorem Rooted.directoryPath_eq : t.directoryPath = .ofNames t.top := by
  unfold top directoryPath
  rw [Path.parse_rooted h]
  rfl

theorem Rooted.top_eq : t.top = Path.pushParts true [] (Path.parts t.directory.toList) := by
  unfold top directoryPath
  rw [Path.parse_rooted h]
  rfl

/-- A resolved path is seen from the mounted directory if it leads there. -/
theorem logical_resolved {p : Path} {x : List String} (hx : t.resolver.resolve p = .ok (.ofNames x)) :
    t.logical p = .ok (.ofNames (t.inward x)) := by
  have hbelow : ((Path.ofNames x).below? (.ofNames t.top)).getD (.ofNames x) =
      .ofNames (t.inward x) := by
    have hstarts : (Path.ofNames x).startsWith (.ofNames t.top) = true ↔ t.top <+: x := by
      simp [Path.startsWith, Path.ofNames]
    unfold Path.below? inward
    split_ifs with h1 h2 h2
    · rfl
    · exact absurd (hstarts.1 h1) h2
    · exact absurd (hstarts.2 h2) h1
    · rfl
  unfold logical
  rw [hx]
  change (if t.directory = "" then _ else _) = _
  rw [if_neg h.ne, h.directoryPath_eq]
  exact congrArg Except.ok hbelow

end Rooted

/-- One name more on the way to a file is one name more in what its text says. -/
theorem pushParts_pushName {s n : String} (hs : s ≠ "") (hn : IsName n) :
    Path.pushParts true [] (Path.parts (pushName s n).toList) =
      Path.pushParts true [] (Path.parts s.toList) ++ [n] := by
  rcases pushName_cases hs hn with ⟨cs, hcs, he⟩ | ⟨-, he⟩
  · -- the slash at the end of `s` leaves an empty part, which is dropped
    have hempty : Path.parts [] = [""] := rfl
    have hparts : Path.parts s.toList = Path.parts cs ++ [""] := by
      rw [hcs, Path.parts_append, hempty]
    have hparts' : Path.parts (pushName s n).toList = Path.parts cs ++ [n] := by
      rw [he, String.toList_append, hcs, List.append_assoc, List.singleton_append,
        Path.parts_append, Path.parts_name hn]
    rw [hparts, hparts', Path.pushParts_append, Path.pushParts_append, Path.pushParts_name true _ hn]
    rfl
  · have hslash : "/".toList = ['/'] := rfl
    rw [he, String.toList_append, String.toList_append, hslash, List.append_assoc,
      List.singleton_append, Path.parts_append, Path.parts_name hn, Path.pushParts_append,
      Path.pushParts_name true _ hn]

theorem pushName_rooted {s n : String} (hs : s.toList.head? = some '/') (hn : IsName n) :
    (pushName s n).toList.head? = some '/' := by
  have hne : s ≠ "" := by
    rintro rfl
    cases hs
  obtain ⟨between, -, he⟩ := pushName_text hne hn
  rw [he, List.append_assoc, List.head?_append, hs]
  rfl

/-- The text of a file below the mounted directory, read as a path. -/
theorem localPath_parse (h : t.Rooted) {x : List String} (hx : ∀ n ∈ x, IsName n) :
    Path.parse (t.localPath (.ofNames x)) = .ok (.ofNames (t.top ++ x)) := by
  have hall : (t.localPath (.ofNames x)).toList.head? = some '/' ∧
      Path.pushParts true [] (Path.parts (t.localPath (.ofNames x)).toList) = t.top ++ x := by
    induction x using List.reverseRecOn with
    | nil => exact ⟨h, by rw [List.append_nil, h.top_eq]; rfl⟩
    | append_singleton x n ih =>
      obtain ⟨hhead, hnames⟩ := ih fun k hk => hx k (by simp [hk])
      have hne : t.localPath (.ofNames x) ≠ "" := by
        intro h0
        rw [h0] at hhead
        cases hhead
      rw [localPath_concat]
      refine ⟨pushName_rooted hhead (hx n (by simp)), ?_⟩
      rw [pushParts_pushName hne (hx n (by simp)), hnames, List.append_assoc]
  rw [Path.parse_rooted hall.1, hall.2]

theorem localPath_injective (h : t.Rooted) {x y : List String} (hx : ∀ n ∈ x, IsName n)
    (hy : ∀ n ∈ y, IsName n) (he : t.localPath (.ofNames x) = t.localPath (.ofNames y)) : x = y := by
  have hparse := localPath_parse h hx
  rw [he, localPath_parse h hy] at hparse
  have hnames : Path.ofNames (t.top ++ y) = Path.ofNames (t.top ++ x) := by simpa using hparse
  exact (List.append_cancel_left (Path.ofNames_injective hnames)).symm

section Reached

/-- The mounts that a mount can come to be: its phase may change, and its working directory moves. -/
inductive Reached : Mount m → Prop
  | ofConfig (config : Config) (hostname : String) (oracle : Oracle m) :
      Reached (.ofConfig config hostname oracle)
  | phase {t : Mount m} (phase : Phase) : Reached t → Reached { t with phase }
  | move {t t' : Mount m} {p : Path} :
      Reached t → p.Normal → t.setWorkingDirectory p = .ok t' → Reached t'

theorem logical_names (hr : t.resolver.Sound) {p q : Path} (hp : p.Normal)
    (hq : t.logical p = .ok q) : ∃ x, q = .ofNames x ∧ ∀ n ∈ x, IsName n := by
  obtain ⟨absolute, hres, hq⟩ := bind_eq_ok.1 hq
  obtain ⟨x, rfl, hx⟩ := Resolver.resolve_names hr hp hres
  split_ifs at hq with hdir
  · cases hq
    exact ⟨x, rfl, hx⟩
  · cases hq
    unfold Path.below?
    split_ifs
    · exact ⟨_, rfl, fun n hn => hx n (List.mem_of_mem_drop hn)⟩
    · exact ⟨x, rfl, hx⟩

theorem logical_normal (hr : t.resolver.Sound) {p q : Path} (hp : p.Normal)
    (hq : t.logical p = .ok q) : q.Normal := by
  obtain ⟨x, rfl, hx⟩ := logical_names hr hp hq
  exact Path.leads_names.2 hx

/-- A working directory moves as the logical path of what is asked for says. -/
theorem setWorkingDirectory_moved {p : Path} (hmove : t.setWorkingDirectory p = .ok t') :
    ∃ q resolver, t.logical p = .ok q ∧ t.resolver.setWorkingDirectory q = .ok resolver ∧
      t' = { t with resolver } := by
  obtain ⟨q, hq, hmove⟩ := bind_eq_ok.1 hmove
  obtain ⟨resolver, hresolver, hmove⟩ := bind_eq_ok.1 hmove
  exact ⟨q, resolver, hq, hresolver, (Except.ok.inj hmove).symm⟩

theorem Reached.sound (h : t.Reached) : t.resolver.Sound := by
  induction h with
  | ofConfig => exact ⟨[], rfl, by simp⟩
  | phase _ _ ih => exact ih
  | move _ hp hmove ih =>
    obtain ⟨q, resolver, hq, hresolver, rfl⟩ := setWorkingDirectory_moved hmove
    exact Resolver.setWorkingDirectory_sound ih (logical_normal ih hp hq) hresolver

theorem Reached.scheme (h : t.Reached) : t.resolver.scheme = Path.volumeScheme := by
  induction h with
  | ofConfig => rfl
  | phase _ _ ih => exact ih
  | move _ _ hmove ih =>
    obtain ⟨q, resolver, -, hresolver, rfl⟩ := setWorkingDirectory_moved hmove
    rw [← ih]
    exact Resolver.setWorkingDirectory_scheme hresolver

end Reached

section Entered

variable {t : Mount Run} {p q : Path}

theorem requireMounted_outcome (hphase : t.phase = .mounted) (w : World) :
    outcome t.requireMounted w = (.ok (), w) := by
  unfold requireMounted
  rw [if_pos hphase]
  rfl

theorem enter_seen (hphase : t.phase = .mounted) (hq : t.logical p = .ok q) (w : World) :
    outcome (t.enter p) w = (.ok q, w) := by
  unfold enter
  rw [outcome_bind_ok (requireMounted_outcome hphase w), hq, outcome_of_except]

theorem enter_unmounted (hphase : t.phase ≠ .mounted) (p : Path) (w : World) :
    ∃ reason, outcome (t.enter p) w = (.error (.config reason), w) := by
  refine ⟨s!"filesystem is not mounted ({t.phase.name})", ?_⟩
  unfold enter requireMounted
  rw [if_neg hphase]
  exact outcome_bind_error (outcome_throw _ w) _

/-- What an operation returns after entering, it returns for the one path that `p` is seen as. -/
theorem returns_enter {α : Type} {P : α → Prop} {f : Path → ExceptT Fault Run α}
    (hq : t.logical p = .ok q) (hf : Returns P (f q)) : Returns P (t.enter p >>= f) := by
  intro w w' a ha
  by_cases hphase : t.phase = .mounted
  · rw [outcome_bind_ok (enter_seen hphase hq w)] at ha
    exact hf ha
  · obtain ⟨reason, hend⟩ := enter_unmounted hphase p w
    rw [outcome_bind_error hend] at ha
    cases ha

end Entered

section Normal

/-- The mounted directory is given by the text of a path in normal form. -/
theorem rooted_of_text {names : List String} (hdir : t.directory = (Path.ofNames names).text) :
    t.Rooted := by
  rw [Rooted, hdir]
  change ("/" ++ "/".intercalate names).toList.head? = _
  rw [String.toList_append]
  rfl

/-- The text of a path is the text of the path above with the name pushed below it. -/
theorem pushName_ofNames {x : List String} {n : String} (hx : ∀ k ∈ x ++ [n], IsName k) :
    pushName (Path.ofNames x).text n = (Path.ofNames (x ++ [n])).text := by
  have hn : IsName n := hx n (by simp)
  rw [Path.text_concat hx, Path.lead, pushName, if_neg hn.head]
  rcases List.eq_nil_or_concat x with rfl | ⟨x, k, rfl⟩
  · rfl
  · rw [List.concat_eq_append] at hx ⊢
    have hend : (Path.ofNames (x ++ [k])).text.toList.getLast? ≠ some '/' := by
      have hk : IsName k := hx k (by simp)
      have hk0 : k.toList ≠ [] := fun h0 => hk.1 (String.toList_eq_nil_iff.1 h0)
      rw [Path.text_concat fun l hl => hx l (List.mem_append_left _ hl), String.toList_append,
        List.getLast?_append_of_ne_nil _ hk0]
      exact fun hslash => hk.2.2.2 (List.mem_of_getLast? hslash)
    have hne : (Path.ofNames (x ++ [k])).text ≠ "" := by simp [Path.text, Path.ofNames]
    rw [if_neg (not_or.2 ⟨hne, hend⟩), if_neg (by simp)]

theorem localPath_text {names : List String} (hnames : ∀ n ∈ names, IsName n)
    (hdir : t.directory = (Path.ofNames names).text) {x : List String} (hx : ∀ n ∈ x, IsName n) :
    t.localPath (.ofNames x) = (Path.ofNames (names ++ x)).text := by
  induction x using List.reverseRecOn with
  | nil => rw [List.append_nil, ← hdir]; rfl
  | append_singleton x n ih =>
    have hall : ∀ k ∈ names ++ x ++ [n], IsName k := by
      rw [List.append_assoc]
      exact List.forall_mem_append.2 ⟨hnames, hx⟩
    rw [localPath_concat, ih fun k hk => hx k (by simp [hk]), pushName_ofNames hall,
      List.append_assoc]

/-- Wherever the working directory was moved to, no path leads out of the mounted directory: the
file of a path is that directory followed by names. Different paths of the volume have different
files, and a file's text leads back to the path it is the file of. -/
theorem contained (hreached : t.Reached) {names : List String} (hnames : ∀ n ∈ names, IsName n)
    (hdir : t.directory = (Path.ofNames names).text) {p : Path} (hp : p.Normal)
    (hours : t.resolver.accepts p = true) :
    ∃ x, t.logical p = .ok (.ofNames x) ∧ (∀ n ∈ x, IsName n) ∧
      t.localPath (.ofNames x) = (Path.ofNames (names ++ x)).text ∧
      (∀ y, (∀ n ∈ y, IsName n) →
        t.localPath (.ofNames y) = t.localPath (.ofNames x) → y = x) ∧
      ∃ r, Path.parse (t.localPath (.ofNames x)) = .ok r ∧ t.logical r = .ok (.ofNames x) := by
  have hrooted := rooted_of_text hdir
  obtain ⟨x, hres, hx⟩ := Resolver.resolve_accepted hreached.sound hp hours
  have hinward := inward_names (t := t) hx
  refine ⟨t.inward x, logical_resolved hrooted hres, hinward, localPath_text hnames hdir hinward,
    fun y hy => localPath_injective hrooted hy hinward, _, localPath_parse hrooted hinward, ?_⟩
  have hback : t.resolver.resolve (.ofNames (t.top ++ t.inward x)) =
      .ok (.ofNames (t.top ++ t.inward x)) := Resolver.resolve_absolute rfl rfl
  rw [logical_resolved hrooted hback, inward_below]

def anchored (directory : String) : Mount Run :=
  .ofConfig { Config.ofBackend .fuse with mount := some directory } "h" (commandOracle "h")

theorem climbing_contained : ∃ t p x,
    (anchored "/mnt").setWorkingDirectory (.ofNames ["a"]) = .ok t ∧
    Path.parse "../../../mnt/.//x" = .ok p ∧ t.logical p = .ok (.ofNames x) ∧
    t.localPath (.ofNames x) = "/mnt/x" := by
  have hmove : (anchored "/mnt").setWorkingDirectory (.ofNames ["a"]) =
      .ok { anchored "/mnt" with resolver := ⟨Path.volumeScheme, .ofNames ["a"]⟩ } := rfl
  have hparse : Path.parse "../../../mnt/.//x" =
      .ok ⟨none, none, false, ["..", "..", "..", "mnt", "x"]⟩ := rfl
  have hdown : (Path.ofNames ["a"]).Normal := Path.leads_names.2 (by decide)
  have hdir : (anchored "/mnt").directory = (Path.ofNames ["mnt"]).text := rfl
  obtain ⟨x, hx, -, hlocal, -⟩ := contained (.move (.ofConfig _ _ _) hdown hmove) (by decide) hdir
    (Path.parse_normal hparse) rfl
  have hlogical : Mount.logical { anchored "/mnt" with
      resolver := ⟨Path.volumeScheme, .ofNames ["a"]⟩ }
      ⟨none, none, false, ["..", "..", "..", "mnt", "x"]⟩ = .ok (.ofNames ["x"]) := rfl
  obtain rfl : ["x"] = x := Path.ofNames_injective (Except.ok.inj (hlogical.symm.trans hx))
  exact ⟨_, _, _, hmove, hparse, hx, hlocal⟩

end Normal

end Mount

end VolumeFS
