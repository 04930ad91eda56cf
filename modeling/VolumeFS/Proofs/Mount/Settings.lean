import VolumeFS.Config.Properties
import VolumeFS.Opening
import VolumeFS.Proofs.Mount.Lifecycle
import VolumeFS.Proofs.Words

/-!
# Settings that a mount cannot do without

A mount needs a volume, a server and a directory. Where one of them is left out
it is refused before anything is done, and it stays so for the whole life of the
mount. A volume or a server of nothing but blanks counts as left out, wherever
the settings come from; a directory of blanks does only in a table of properties.
-/

set_option autoImplicit false

namespace VolumeFS

namespace Config

def Unset (setting : Option String) : Prop := ∀ text, setting = some text → Text.IsGap text.toList

/-- A setting is missing that a mount needs. A directory counts as given if it is not empty. -/
def Lacks (c : Config) : Prop :=
  Unset c.volume ∨ Unset c.server ∨ c.mount = none ∨ c.mount = some ""

inductive Misses (c : Config) : String → Prop
  | volume : Unset c.volume → Misses c "fs.glusterfs.volname is not set"
  | server : Unset c.server → Misses c "fs.glusterfs.server is not set"
  | mount : c.mount = none ∨ c.mount = some "" → Misses c "fs.glusterfs.mount is not set"

/-- A setting is missing that a mount needs, or it is nothing but blanks. -/
def Incomplete (c : Config) : Prop := Unset c.volume ∨ Unset c.server ∨ Unset c.mount

theorem filled_cases (setting : Option String) :
    setting.filter (!Text.isBlankText ·) = none ∧ Unset setting ∨
      ∃ text, setting.filter (!Text.isBlankText ·) = some text ∧ setting = some text ∧
        ¬ Unset setting := by
  cases setting with
  | none => exact .inl ⟨rfl, nofun⟩
  | some text =>
    cases hblank : Text.isBlankText text with
    | true =>
      refine .inl ⟨by simp [hblank], ?_⟩
      rintro _ ⟨⟩
      exact List.all_eq_true.1 hblank
    | false =>
      refine .inr ⟨text, by simp [hblank], rfl, fun hunset => ?_⟩
      have hall : Text.isBlankText text = true := List.all_eq_true.2 (hunset text rfl)
      rw [hblank] at hall
      cases hall

theorem given_cases (setting : Option String) :
    setting.filter (· ≠ "") = none ∧ (setting = none ∨ setting = some "") ∨
      ∃ text, setting.filter (· ≠ "") = some text ∧ setting = some text ∧
        ¬ (setting = none ∨ setting = some "") := by
  cases setting with
  | none => exact .inl ⟨rfl, .inl rfl⟩
  | some text =>
    by_cases htext : text = ""
    · exact .inl ⟨by simp [htext], .inr (congrArg some htext)⟩
    · exact .inr ⟨text, by simp [htext], rfl, by simp [htext]⟩

/-- Either a setting is missing, or the three are taken as they are. -/
theorem mountSettings_cases (c : Config) :
    (c.Lacks ∧ ∃ reason, c.Misses reason ∧ c.mountSettings = .error (.config reason)) ∨
      ∃ volume server directory, ¬ c.Lacks ∧ c.volume = some volume ∧ c.server = some server ∧
        c.mount = some directory ∧ c.mountSettings = .ok ⟨volume, server, directory⟩ := by
  unfold mountSettings Lacks
  obtain ⟨hvolume, hunset⟩ | ⟨volume, hvolume, heq, hset⟩ := filled_cases c.volume
  · rw [hvolume]
    exact .inl ⟨.inl hunset, _, .volume hunset, rfl⟩
  obtain ⟨hserver, hunset⟩ | ⟨server, hserver, heq₁, hset₁⟩ := filled_cases c.server
  · rw [hvolume, hserver]
    exact .inl ⟨.inr (.inl hunset), _, .server hunset, rfl⟩
  obtain ⟨hmount, hunset⟩ | ⟨directory, hmount, heq₂, hset₂⟩ := given_cases c.mount
  · rw [hvolume, hserver, hmount]
    exact .inl ⟨.inr (.inr hunset), _, .mount hunset, rfl⟩
  · rw [hvolume, hserver, hmount]
    refine .inr ⟨volume, server, directory, ?_, heq, heq₁, heq₂, rfl⟩
    rintro (h | h | h)
    · exact hset h
    · exact hset₁ h
    · exact hset₂ h

theorem mountSettings_lacks {c : Config} (h : c.Lacks) :
    ∃ reason, c.Misses reason ∧ c.mountSettings = .error (.config reason) := by
  obtain ⟨-, hreason⟩ | ⟨_, _, _, hnot, -⟩ := c.mountSettings_cases
  · exact hreason
  · exact absurd h hnot

theorem mountSettings_eq_ok_iff (c : Config) (s : MountSettings) :
    c.mountSettings = .ok s ↔ ¬ c.Lacks ∧
      c.volume = some s.volume ∧ c.server = some s.server ∧ c.mount = some s.directory := by
  obtain ⟨hlacks, reason, -, hreason⟩ | ⟨volume, server, directory, hnot, hv, hs, hd, hok⟩ :=
    c.mountSettings_cases
  · simp [hreason, hlacks]
  · obtain ⟨v, s, d⟩ := s
    simp [hok, hnot, hv, hs, hd]

theorem unset_none : Unset none := nofun

theorem unset_some_iff (text : String) : Unset (some text) ↔ Text.IsGap text.toList := by
  simp [Unset]

/-- Only a directory of blanks passes for one, where a volume and a server are given. -/
theorem lacks_iff_incomplete (c : Config) :
    (c.Lacks ↔ c.Incomplete) ↔
      (Unset c.mount → c.mount = none ∨ c.mount = some "" ∨ Unset c.volume ∨ Unset c.server) := by
  have hmount : c.mount = none ∨ c.mount = some "" → Unset c.mount := by
    rintro (h | h)
    · rw [h]
      exact unset_none
    · rw [h, unset_some_iff]
      exact nofun
  unfold Lacks Incomplete
  grind

section Properties

variable (properties : List (String × String))

/-- The value of a property is trimmed, and one that was nothing but blanks is left out. -/
theorem property?_cases (key : String) :
    property? properties key = none ∧ Unset (properties.lookup key) ∨
      ∃ text, property? properties key = some text ∧ ¬ Text.IsGap text.toList ∧
        ¬ Unset (properties.lookup key) := by
  unfold property?
  cases properties.lookup key with
  | none => exact .inl ⟨rfl, nofun⟩
  | some text =>
    rw [unset_some_iff, ← Text.isGap_trim_iff]
    by_cases htrim : Text.trim text = ""
    · refine .inl ⟨by simp [htrim], ?_⟩
      rw [htrim]
      exact nofun
    · have hsolid : ¬ Text.IsGap (Text.trim text).toList := fun hgap =>
        htrim (Text.trim_gap ((Text.isGap_trim_iff text).1 hgap))
      exact .inr ⟨Text.trim text, by simp [htrim], hsolid, hsolid⟩

theorem unset_property?_iff (key : String) :
    Unset (property? properties key) ↔ Unset (properties.lookup key) := by
  obtain ⟨hnone, hunset⟩ | ⟨text, hsome, hsolid, hset⟩ := property?_cases properties key
  · rw [hnone]
    exact ⟨fun _ => hunset, fun _ => nofun⟩
  · rw [hsome, unset_some_iff]
    exact ⟨fun hgap => absurd hgap hsolid, fun hunset => absurd hunset hset⟩

structure FromProperties (c : Config) : Prop where
  volume : c.volume = (property? properties "fs.glusterfs.volname").or
    (property? properties "fs.glusterfs.volume")
  server : c.server = property? properties "fs.glusterfs.server"
  mount : c.mount = property? properties "fs.glusterfs.mount"

variable {properties}

theorem ofProperties_settings {c : Config} (h : ofProperties properties = .ok c) :
    FromProperties properties c := by
  unfold ofProperties at h
  dsimp only at h
  split at h
  all_goals
    obtain ⟨backend, -, h⟩ := bind_eq_ok.1 h
    split at h
    · split at h
      · obtain rfl := Except.ok.inj h
        exact ⟨rfl, rfl, rfl⟩
      · obtain ⟨bufferSize, -, h⟩ := bind_eq_ok.1 h
        obtain rfl := Except.ok.inj h
        exact ⟨rfl, rfl, rfl⟩
    · obtain rfl := Except.ok.inj h
      exact ⟨rfl, rfl, rfl⟩

/-- In settings from properties a mount lacks just what the properties leave out or have blank. -/
theorem lacks_ofProperties_iff {c : Config} (h : ofProperties properties = .ok c) :
    c.Lacks ↔
      Unset (properties.lookup "fs.glusterfs.volname") ∧
        Unset (properties.lookup "fs.glusterfs.volume") ∨
      Unset (properties.lookup "fs.glusterfs.server") ∨
      Unset (properties.lookup "fs.glusterfs.mount") := by
  have hfrom := ofProperties_settings h
  have hvolume : Unset c.volume ↔ Unset (properties.lookup "fs.glusterfs.volname") ∧
      Unset (properties.lookup "fs.glusterfs.volume") := by
    rw [hfrom.volume, ← unset_property?_iff _ "fs.glusterfs.volname",
      ← unset_property?_iff _ "fs.glusterfs.volume"]
    obtain ⟨hnone, -⟩ | ⟨text, hsome, hsolid, -⟩ :=
      property?_cases properties "fs.glusterfs.volname"
    · simp [hnone, unset_none]
    · simp [hsome, unset_some_iff, hsolid]
  have hmount : c.mount = none ∨ c.mount = some "" ↔
      Unset (properties.lookup "fs.glusterfs.mount") := by
    rw [hfrom.mount]
    obtain ⟨hnone, hunset⟩ | ⟨text, hsome, hsolid, hset⟩ :=
      property?_cases properties "fs.glusterfs.mount"
    · simp [hnone, hunset]
    · have htext : text ≠ "" := by
        rintro rfl
        exact hsolid nofun
      simp [hsome, htext, hset]
  unfold Lacks
  rw [hvolume, hmount, hfrom.server, unset_property?_iff]

end Properties

end Config

namespace Mount

/-- A request to a mount that lacks a setting does nothing on the host and does not bring the mount
into use. -/
structure Episode.Barred (h : Host) (e : Episode) : Prop where
  untouched : e.hostAfter = h
  unmounted : e.after.phase ≠ .mounted
  steady : e.request ≠ .close → e.after.phase = e.before.phase
  refused : e.request = .start → ∃ reason, e.answer = .error (.config reason)

section Run

variable {t : Mount HostRun}

theorem episode_barred (hlacks : t.config.Lacks)
    (hphase : t.phase = .uninitialized ∨ t.phase = .closed) (h : Host) (request : Request) :
    (episode t h request).Barred h ∧ (episode t h request).after.config = t.config ∧
      ((episode t h request).after.phase = .uninitialized ∨
        (episode t h request).after.phase = .closed) := by
  have hmounted : t.phase ≠ .mounted := by
    obtain hphase | hphase := hphase
    all_goals
      rw [hphase]
      exact nofun
  by_cases hstart : request = .start
  · subst hstart
    have hserve : ∃ reason, t.serve .start h = ((.error (.config reason), t), h) := by
      obtain hphase | hphase := hphase
      · obtain ⟨reason, -, hreason⟩ := Config.mountSettings_lacks hlacks
        exact ⟨reason, start_unset hphase hreason h⟩
      · exact ⟨_, start_closed hphase h⟩
    obtain ⟨reason, hserve⟩ := hserve
    unfold episode
    rw [hserve]
    exact ⟨⟨rfl, hmounted, fun _ => rfl, fun _ => ⟨reason, rfl⟩⟩, rfl, hphase⟩
  · obtain ⟨hconfig, hsteady, hidle⟩ := episode_steady (t := t) h hstart
    by_cases hclose : request = .close
    · subst hclose
      exact ⟨⟨hidle hmounted, nofun, fun hne => absurd rfl hne, nofun⟩, hconfig, .inr rfl⟩
    · have hafter := hsteady hclose
      refine ⟨⟨hidle hmounted, ?_, fun _ => hafter, fun h => absurd h hstart⟩, hconfig, ?_⟩
      · rwa [hafter]
      · rwa [hafter]

theorem episodes_barred (hlacks : t.config.Lacks)
    (hphase : t.phase = .uninitialized ∨ t.phase = .closed) (h : Host) (requests : List Request) :
    ∀ e ∈ episodes t h requests, e.Barred h := by
  induction requests generalizing t with
  | nil =>
    intro e he
    exact absurd he List.not_mem_nil
  | cons request requests ih =>
    obtain ⟨hbarred, hconfig, hafter⟩ := episode_barred hlacks hphase h request
    intro e he
    obtain rfl | he := List.mem_cons.1 he
    · exact hbarred
    · rw [hbarred.untouched] at he
      exact ih (hconfig ▸ hlacks) hafter e he

end Run

section Opening

variable {m : Type → Type} [Monad m]

/-- A mount that is refused has no effect at all. -/
theorem start_refused [Commands m] {c : Config} {fault : Fault}
    (h : c.mountSettings = .error fault) (hostname : String) (oracle : Oracle m) :
    (ofConfig c hostname oracle).start = pure (.error fault, ofConfig c hostname oracle) := by
  have hconfig : (ofConfig c hostname oracle).config.mountSettings = .error fault := h
  have hphase : (ofConfig c hostname oracle).phase = .uninitialized := rfl
  unfold start
  rw [hphase, hconfig]

theorem open_refused [LawfulMonad m] [VolumeAccess m] [DiskAccess m] [Commands m] [Clock m]
    {c : Config} (hbackend : c.backend = .fuse) {fault : Fault}
    (h : c.mountSettings = .error fault) (user hostname : String)
    (connect? : Option (String → String → ExceptT Fault m String)) :
    openFileSystem c user hostname connect? = throw fault := by
  unfold openFileSystem
  rw [hbackend]
  dsimp only
  rw [start_refused h, pure_bind]
  rfl

end Opening

/-- Where a volume, a server or a directory is missing there are no settings to mount by, opening a
mount ends at once, and no request ever reaches the host or brings the mount into use; else the
settings are the three as they are. What is nothing but blanks is missing too, unless it is the
directory alone. In settings that come from properties what is missing is just what these leave out
or have blank. -/
theorem settings_needed (c : Config) :
    (∀ s, c.mountSettings = .ok s ↔ ¬ c.Lacks ∧
      c.volume = some s.volume ∧ c.server = some s.server ∧ c.mount = some s.directory) ∧
    (c.Lacks → ∃ reason, c.Misses reason ∧ c.mountSettings = .error (.config reason) ∧
      (c.backend = .fuse → ∀ {m : Type → Type} [Monad m] [LawfulMonad m] [VolumeAccess m]
        [DiskAccess m] [Commands m] [Clock m] (user hostname : String)
        (connect? : Option (String → String → ExceptT Fault m String)),
        openFileSystem c user hostname connect? = throw (.config reason)) ∧
      ∀ (hostname : String) (oracle : Oracle HostRun) (h : Host) (requests : List Request),
        ∀ e ∈ episodes (.ofConfig c hostname oracle) h requests, e.Barred h) ∧
    ((c.Lacks ↔ c.Incomplete) ↔ (Config.Unset c.mount →
      c.mount = none ∨ c.mount = some "" ∨ Config.Unset c.volume ∨ Config.Unset c.server)) ∧
    ∀ properties, Config.ofProperties properties = .ok c →
      (c.Lacks ↔
        Config.Unset (properties.lookup "fs.glusterfs.volname") ∧
          Config.Unset (properties.lookup "fs.glusterfs.volume") ∨
        Config.Unset (properties.lookup "fs.glusterfs.server") ∨
        Config.Unset (properties.lookup "fs.glusterfs.mount")) := by
  refine ⟨c.mountSettings_eq_ok_iff, fun hlacks => ?_, c.lacks_iff_incomplete,
    fun _ => Config.lacks_ofProperties_iff⟩
  obtain ⟨reason, hmisses, hreason⟩ := Config.mountSettings_lacks hlacks
  refine ⟨reason, hmisses, hreason, fun hbackend => ?_, fun hostname oracle h requests => ?_⟩
  · intro m _ _ _ _ _ _ user hostname connect?
    exact open_refused hbackend hreason user hostname connect?
  · exact episodes_barred hlacks (.inl rfl) h requests

def compliant : Host where
  disk := .ofDirectories []
  runner _ d _ _ := (.ok ⟨some 0, "", ""⟩, d)
  deeds := []

def nowhere : Config := ⟨.fuse, some "v", some "s", some " ", false, none, none⟩

/-- A directory that is nothing but a blank is asked for and taken for mounted. -/
theorem blank_directory_mounted :
    Config.Unset nowhere.mount ∧ nowhere.mountSettings = .ok ⟨"v", "s", " "⟩ ∧
      (episode (.ofConfig nowhere "h" (.broken "")) compliant .start).after.phase = .mounted ∧
      (episode (.ofConfig nowhere "h" (.broken "")) compliant .start).hostAfter.deeds =
        [Shell.check " " (.ok ⟨some 0, "", ""⟩)] := by
  refine ⟨?_, rfl, rfl, rfl⟩
  rw [nowhere, Config.unset_some_iff]
  exact List.all_eq_true.1 (by decide : " ".toList.all Text.isBlank = true)

end Mount

end VolumeFS
