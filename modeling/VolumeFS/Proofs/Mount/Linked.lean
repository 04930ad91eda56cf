import VolumeFS.Proofs.Disk.Linked
import VolumeFS.Proofs.Mount.Path

/-!
# Paths under a mount that lead through links

Whatever links are on the disk: where the path of a directory of the volume
leads somewhere, the path of what is below goes on from there, and the path of
each directory above leads to a directory too.
-/

set_option autoImplicit false

namespace VolumeFS.Mount

open Disk

def seen (file : String) (d : Disk) : Except Fault (Option EntryKind) :=
  match d.metadata file with
  | .ok found => .ok (some (if found.isDirectory then .directory else .file))
  | .error e => if e.kind = .notFound then .ok none else .error (.ofIo e file)

section Seen

variable {d : Disk} {file : String} {base : Place}

theorem seen_absent (h : d.find file = .error noEntry) : seen file d = .ok none := by
  unfold seen Disk.metadata
  rw [h]
  rfl

theorem seen_directory (h : d.Onward file base []) : seen file d = .ok (some .directory) := by
  obtain ⟨mode, hfind⟩ := h.here
  unfold seen Disk.metadata
  rw [hfind]
  rfl

theorem seen_file {number : Nat} (h : d.find file = .ok (base, .file number)) :
    seen file d = .ok (some .file) := by
  unfold seen Disk.metadata
  rw [h]
  rfl

theorem find_file_seen (h : seen file d = .ok (some .file)) :
    ∃ place number, d.find file = .ok (place, .file number) := by
  unfold seen Disk.metadata at h
  cases hfind : d.find file with
  | error e =>
    rw [hfind] at h
    simp only [bind, Except.bind] at h
    split_ifs at h
    cases h
  | ok found =>
    obtain ⟨place, _ | number | _⟩ := found
    · rw [hfind] at h
      cases h
    · exact ⟨place, number, rfl⟩
    · rw [hfind] at h
      cases h

end Seen

structure Below (s s' : String) (z : List String) : Prop where
  text : ∃ rest, s'.toList = s.toList ++ rest ∧ ∀ c ∈ rest, c = '/' ∨ ∃ n ∈ z, c ∈ n.toList
  size : s.utf8ByteSize ≤ s'.utf8ByteSize
  parts : ∃ before, parts s' = before ++ z ∧ (parts s = before ∨ parts s = before ++ [""])
  ends : z ≠ [] → s'.toList.getLast? ≠ some '/'

theorem Below.refl (s : String) : Below s s [] where
  text := ⟨[], (List.append_nil _).symm, by simp⟩
  size := Nat.le_refl _
  parts := ⟨_, (List.append_nil _).symm, .inl rfl⟩
  ends := fun h => absurd rfl h

/-- If the text ends with a slash, its last part is empty. -/
theorem pushName_parts {s n : String} (hs : s ≠ "") (hn : IsName n) :
    ∃ before, parts (pushName s n) = before ++ [n] ∧
      (parts s = before ∨ parts s = before ++ [""]) := by
  obtain ⟨before, hparts, hkeep, -⟩ := parts_pushName hs hn
  refine ⟨before, hparts, ?_⟩
  obtain ⟨cs, hcs, he⟩ | ⟨hend, -⟩ := pushName_cases hs hn
  · have hbefore : parts (pushName s n) = (Text.fields '/' cs).map String.ofList ++ [n] := by
      rw [he, parts, String.toList_append, hcs, List.append_assoc, List.singleton_append,
        fields_append, List.map_append, fields_slashfree hn.2.2.2]
      simp
    rw [hparts] at hbefore
    rw [List.append_cancel_right hbefore, parts, hcs, fields_append, List.map_append]
    exact .inr rfl
  · exact .inl (hkeep hend).symm

theorem Below.push {s s' n : String} {z : List String} (h : Below s s' z) (hs' : s' ≠ "")
    (hn : IsName n) (hz : z = [] → s' = s) : Below s (pushName s' n) (z ++ [n]) where
  text := by
    obtain ⟨rest, hrest, hchars⟩ := h.text
    obtain ⟨between, hbetween, he⟩ := pushName_text hs' hn
    refine ⟨rest ++ between ++ n.toList, by simp [he, hrest], fun c hc => ?_⟩
    rcases List.mem_append.1 hc with hc | hc
    · rcases List.mem_append.1 hc with hc | hc
      · obtain hslash | ⟨k, hk, hck⟩ := hchars c hc
        · exact .inl hslash
        · exact .inr ⟨k, List.mem_append_left _ hk, hck⟩
      · rcases hbetween with rfl | rfl
        · cases hc
        · exact .inl (List.mem_singleton.1 hc)
    · exact .inr ⟨n, by simp, hc⟩
  size := Nat.le_trans h.size (pushName_length s' hn)
  parts := by
    by_cases hz0 : z = []
    · obtain rfl := hz hz0
      subst hz0
      exact pushName_parts hs' hn
    · obtain ⟨before, hparts, hbefore⟩ := h.parts
      obtain ⟨before', hparts', hkeep, -⟩ := parts_pushName hs' hn
      refine ⟨before, ?_, hbefore⟩
      rw [hparts', hkeep (h.ends hz0), hparts, List.append_assoc]
  ends := fun _ => pushName_end hs' hn

section LocalPath

variable {m : Type → Type} {t : Mount m} (hne : t.directory ≠ "")

include hne

theorem localPath_below (x : List String) {z : List String} (hz : ∀ n ∈ z, IsName n) :
    Below (t.localPath (.ofNames x)) (t.localPath (.ofNames (x ++ z))) z := by
  induction z using List.reverseRecOn with
  | nil =>
    rw [List.append_nil]
    exact .refl _
  | append_singleton z n ih =>
    rw [← List.append_assoc, localPath_concat]
    refine (ih fun m hm => hz m (by simp [hm])).push (localPath_nonempty hne _) (hz n (by simp)) ?_
    rintro rfl
    rw [List.append_nil]

theorem localPath_start {x z : List String} (hz : ∀ n ∈ z, IsName n) :
    (t.localPath (.ofNames (x ++ z))).toList.head? = (t.localPath (.ofNames x)).toList.head? := by
  obtain ⟨rest, hrest, -⟩ := (localPath_below hne x hz).text
  have hx : (t.localPath (.ofNames x)).toList ≠ [] :=
    fun h0 => localPath_nonempty hne x (String.toList_eq_nil_iff.1 h0)
  rw [hrest, List.head?_append_of_ne_nil _ hx]

theorem fits_upper {x z : List String} (h : t.Fits (x ++ z)) : t.Fits x where
  names := fun n hn => h.names n (List.mem_append_left _ hn)
  short := by
    have hz : ∀ n ∈ z, IsName n := fun n hn => (h.names n (List.mem_append_right _ hn)).name
    exact Nat.le_trans (localPath_below hne x hz).size h.short

variable {d : Disk} {x : List String} {base : Place}

/-- What leads to a directory leads there on the path of what is below. -/
theorem way_below {start : Place} {left : Nat} {z : List String} (hz : ∀ n ∈ z, IsName n)
    (h : Way d linkLimit start (parts (t.localPath (.ofNames x))) left base) : ∃ before,
    parts (t.localPath (.ofNames (x ++ z))) = before ++ z ∧
      Way d linkLimit start before left base := by
  obtain ⟨before, hparts, hbefore⟩ := (localPath_below hne x hz).parts
  refine ⟨before, hparts, ?_⟩
  obtain heq | heq := hbefore
  · rwa [← heq]
  · obtain ⟨links, place, hfirst, hslash⟩ := h.split heq
    obtain ⟨rfl, rfl⟩ := hslash.slash rfl
    exact hfirst

/-- The path of what is below is walked from where that of the directory is. -/
theorem route_below {start : Place} {ps : List String} {z : List String}
    (h : d.route (t.localPath (.ofNames x)) = .ok (start, ps)) (hz : t.Fits (x ++ z)) :
    d.route (t.localPath (.ofNames (x ++ z))) =
      .ok (start, parts (t.localPath (.ofNames (x ++ z)))) := by
  have hnames : ∀ n ∈ z, EntryName n := fun n hn => hz.names n (List.mem_append_right _ hn)
  have hplain : ∀ n ∈ z, IsName n := fun n hn => (hnames n hn).name
  obtain ⟨hnul, -, -, hstart, -⟩ := route_ok.1 h
  obtain ⟨rest, hrest, hchars⟩ := (localPath_below (t := t) hne x hplain).text
  refine route_ok.2 ⟨fun c hc => ?_, localPath_nonempty hne _, hz.short, ?_, rfl⟩
  · rw [hrest] at hc
    rcases List.mem_append.1 hc with hc | hc
    · exact hnul c hc
    · obtain rfl | ⟨n, hn, hcn⟩ := hchars c hc
      · decide
      · exact (hnames n hn).nul c hcn
  · rw [localPath_start hne hplain]
    exact hstart

/-- From a directory the path goes on along the names. -/
theorem onward_below (h : d.Onward (t.localPath (.ofNames x)) base []) {z : List String}
    (hz : t.Fits (x ++ z)) : d.Onward (t.localPath (.ofNames (x ++ z))) base z := by
  obtain ⟨start, before, left, hroute, hway⟩ := h
  rw [List.append_nil] at hroute
  obtain ⟨-, -, -, -, rfl⟩ := route_ok.1 hroute
  have hplain : ∀ n ∈ z, IsName n := fun n hn => (hz.names n (List.mem_append_right _ hn)).name
  obtain ⟨before', hparts, hway'⟩ := way_below hne hplain hway
  have hroute' := route_below hne hroute hz
  rw [hparts] at hroute'
  exact ⟨start, before', left, hroute', hway'⟩

/-- Where the path goes on along the names, the path above them ends. -/
theorem onward_upper {z : List String} (hz : ∀ n ∈ z, IsName n)
    (h : d.Onward (t.localPath (.ofNames (x ++ z))) base z) :
    d.Onward (t.localPath (.ofNames x)) base [] := by
  obtain ⟨start, first, left, hroute, hfirst⟩ := h
  obtain ⟨hnul, -, hshort, hstart, hsplit⟩ := route_ok.1 hroute
  have hbelow := localPath_below (t := t) hne x hz
  obtain ⟨rest, hrest, -⟩ := hbelow.text
  obtain ⟨before, hparts, hbefore⟩ := hbelow.parts
  obtain rfl : first = before := List.append_cancel_right (hsplit.trans hparts)
  have hway : Way d linkLimit start (parts (t.localPath (.ofNames x))) left base := by
    obtain heq | heq := hbefore
    · rwa [heq]
    · obtain ⟨mode, hplace⟩ := hfirst.directory
      rw [heq]
      exact hfirst.append (.still hplace (.inl rfl) (.here hplace))
  refine ⟨start, _, left, ?_, hway⟩
  rw [List.append_nil]
  refine route_ok.2 ⟨fun c hc => hnul c ?_, localPath_nonempty hne x,
    Nat.le_trans hbelow.size hshort, ?_, rfl⟩
  · rw [hrest]
    exact List.mem_append_left _ hc
  · rw [← localPath_start hne hz]
    exact hstart

/-- The directories above are there. -/
theorem onward_above {z : List String} (hz : ∀ n ∈ z, IsName n)
    (h : d.Onward (t.localPath (.ofNames (x ++ z))) base []) :
    ∃ base', d.Onward (t.localPath (.ofNames x)) base' [] ∧
      d.Onward (t.localPath (.ofNames (x ++ z))) base' z := by
  obtain ⟨start, before, left, hroute, hway⟩ := h
  rw [List.append_nil] at hroute
  obtain ⟨-, -, -, -, rfl⟩ := route_ok.1 hroute
  obtain ⟨before', hparts, -⟩ := (localPath_below (t := t) hne x hz).parts
  obtain ⟨links, place, hfirst, -⟩ := hway.split hparts
  rw [hparts] at hroute
  have hgo : d.Onward (t.localPath (.ofNames (x ++ z))) place z :=
    ⟨start, before', links, hroute, hfirst⟩
  exact ⟨place, onward_upper hne hz hgo, hgo⟩

/-- So many links may be taken from a directory on the path of what is below it; and no path that
goes through it may take more. -/
theorem onward_resolve (h : d.Onward (t.localPath (.ofNames x)) base []) : ∃ left,
    (∀ z, t.Fits (x ++ z) → d.resolve (t.localPath (.ofNames (x ++ z))) = d.walk left base z) ∧
    ∀ z n place found, (∀ m ∈ z ++ [n], IsName m) →
      d.Onward (t.localPath (.ofNames (x ++ (z ++ [n])))) place [n] →
      d.resolve (t.localPath (.ofNames (x ++ (z ++ [n])))) = .ok found →
      d.walk left place [n] = .ok found := by
  have hgo := h
  obtain ⟨start, before, left, hroute, hway⟩ := h
  rw [List.append_nil] at hroute
  obtain ⟨-, -, -, hstart, rfl⟩ := route_ok.1 hroute
  have hbelow : ∀ {z : List String}, (∀ m ∈ z, IsName m) → ∀ {start' ps},
      d.route (t.localPath (.ofNames (x ++ z))) = .ok (start', ps) →
      ∃ before, ps = before ++ z ∧ start' = start ∧ Way d linkLimit start before left base := by
    intro z hz start' ps hroute'
    obtain ⟨-, -, -, hstart', rfl⟩ := route_ok.1 hroute'
    obtain ⟨before, hparts, hbefore⟩ := way_below hne hz hway
    rw [localPath_start hne hz] at hstart'
    exact ⟨before, hparts, hstart'.trans hstart.symm, hbefore⟩
  refine ⟨left, fun z hz => ?_, fun z n place found hz hlast hresolve => ?_⟩
  · obtain ⟨start', before', -, hroute', -⟩ := onward_below hne hgo hz
    obtain ⟨before, hparts, rfl, hbefore⟩ :=
      hbelow (fun m hm => (hz.names m (List.mem_append_right _ hm)).name) hroute'
    unfold Disk.resolve
    rw [hroute', hparts, ← hbefore.walk z]
    rfl
  · obtain ⟨start', before', left', hroute', hway'⟩ := hlast
    obtain ⟨before, hparts, rfl, hbefore⟩ := hbelow hz hroute'
    rw [← List.append_assoc] at hparts
    obtain rfl := List.append_cancel_right hparts
    -- the way to the directory is a part of the way to the place
    obtain ⟨links, place', hfirst, hrest⟩ := hway'.split rfl
    obtain ⟨rfl, rfl⟩ := hbefore.unique hfirst
    unfold Disk.resolve at hresolve
    rw [hroute'] at hresolve
    change d.walk linkLimit start' (before ++ z ++ [n]) = _ at hresolve
    rw [hway'.walk [n]] at hresolve
    exact walk_more hrest.left_le hresolve

end LocalPath

end VolumeFS.Mount
