import VolumeFS.Proofs.Run
import VolumeFS.Proofs.Volume.WellFormed

/-!
# Volumes in use

Callers reach a volume by handles on paths, which may be spelled in any way, and
by writers that stay open while entries come and go. Whatever they ask for, and
whether or not it is granted, a volume that started empty stays well-formed.
-/

set_option autoImplicit false

namespace VolumeFS.Volume

/-- What callers can ask of a volume. A writer is named by its place among those opened. -/
inductive Call where
  | createFile (path : String)
  | makeDirectory (path : String)
  | delete (path : String)
  | rename (source target : String)
  | chmod (path : String) (mode : UInt32)
  | chown (path : String) (uid gid : Int)
  | openWriter (path : String)
  | write (writer : Nat) (bytes : List Byte)
  | seek (writer : Nat) (place : SeekFrom)
  | refuseRenames (on : Bool)
  | setAttribute (path name value : String)

structure Use where
  world : World
  writers : List Writer

namespace Use

variable {α : Type}

def after (s : Use) (x : ExceptT Fault Run α) : Use :=
  { s with world := (outcome x s.world).2 }

def opened (s : Use) (x : ExceptT Fault Run Writer) : Use :=
  match outcome x s.world with
  | (.ok w, world) => ⟨world, s.writers ++ [w]⟩
  | (.error _, world) => { s with world }

def onWriter (s : Use) (i : Nat) (x : StreamT Writer Run α) : Use :=
  match s.writers[i]? with
  | none => s
  | some w =>
    let ((_, w), world) := acted x w s.world
    ⟨world, s.writers.set i w⟩

def onVolume (s : Use) (f : Volume → Volume) : Use :=
  { s with world := { s.world with volume := f s.world.volume } }

end Use

def Call.step : Call → Use → Use
  | .createFile path, s => s.after (VolumeAccess.createFile (.ofText path))
  | .makeDirectory path, s => s.after (VolumeAccess.makeDirectory (.ofText path))
  | .delete path, s => s.after (VolumeAccess.delete (.ofText path))
  | .rename source target, s =>
    s.after (VolumeAccess.rename (.ofText source) (.ofText target))
  | .chmod path mode, s => s.after (VolumeAccess.chmod (Key.ofText path) mode)
  | .chown path uid gid, s => s.after (VolumeAccess.chown (.ofText path) uid gid)
  | .openWriter path, s => s.opened (VolumeAccess.openWriter (.ofText path))
  | .write i bytes, s => s.onWriter i (Writable.write bytes)
  | .seek i place, s => s.onWriter i (VolumeAccess.seekWriter place)
  | .refuseRenames on, s => s.onVolume fun v => { v with refusesRenames := on }
  | .setAttribute path name value, s => s.onVolume (Volume.setAttribute (.ofText path) name value)

def calls : List Call → Use → Use
  | [], s => s
  | call :: rest, s => calls rest (call.step s)

def Use.start (name : String) (uid gid : UInt32) (world : World) : Use :=
  ⟨{ world with volume := .empty name uid gid }, []⟩

def Reachable (v : Volume) : Prop :=
  ∃ name uid gid world cs, v = (calls cs (.start name uid gid world)).world.volume

theorem overwrite_length (data : List Byte) (offset : Nat) (bytes : List Byte) :
    (overwrite data offset bytes).length = max data.length (offset + bytes.length) := by
  simp only [overwrite, List.length_append, List.length_take, List.length_drop,
    List.length_replicate]
  omega

section Changes

variable {v v' : Volume} (h : v.WellFormed) {k : Key}

include h

theorem add_wellFormed (hk : k.Normal) {content : Content} {mode : UInt32}
    (hmode : mode ≤ 0o7777) (hlen : content.length ≤ longest)
    (ha : add k content mode v = .ok v') : v'.WellFormed := by
  obtain ⟨p, d, hp, hfree, hd, hdir, rfl⟩ := add_ok ha
  rcases key_cases k with rfl | ⟨x, n, rfl⟩
  · obtain ⟨r, hr, -⟩ := h.root
    rw [hfree] at hr
    cases hr
  · rw [key_parent] at hp
    cases hp
    exact h.put_new (hk n (by simp)) hd hdir hfree hmode hlen

theorem delete_wellFormed (hd : delete k v = .ok v') : v'.WellFormed := by
  obtain ⟨hne, ⟨e, he, hleaf⟩, hv, -⟩ := delete_ok hd
  obtain ⟨x⟩ := k
  refine h.erased (x := x) (fun hx => hne (by rw [hx]; rfl)) (fun n => ?_) hv
  by_cases hdir : e.content.isDirectory = true
  · exact WellFormed.childless_hasBelow (hleaf hdir) n
  · refine h.nothing_below (by simp) (fun d hd' hc => hdir ?_)
    rw [he] at hd'
    cases hd'
    rw [hc]
    rfl

theorem rename_wellFormed {target : Key} (ht : target.Normal)
    (hr : rename k target v = .ok v') : v'.WellFormed := by
  obtain ⟨hs, hfree, hb, ⟨p, d, hp, hd, hdir⟩, rfl⟩ := rename_ok hr
  rcases key_cases target with rfl | ⟨x, n, rfl⟩
  · obtain ⟨r, hr', -⟩ := h.root
    rw [hfree] at hr'
    cases hr'
  · rw [key_parent] at hp
    cases hp
    obtain ⟨source⟩ := k
    refine h.relocated (ht n (by simp)) hfree hd hdir (fun hpre => ?_)
    rw [Bool.eq_false_iff] at hb
    refine hb (isBelow_iff.2 ⟨hpre, fun he => ?_⟩)
    obtain ⟨e, he'⟩ := hs
    rw [show source = x ++ [n] from he.symm, hfree] at he'
    cases he'

theorem chmod_wellFormed {mode : UInt32} (hc : chmod k mode v = .ok v') : v'.WellFormed := by
  obtain ⟨e, he, rfl⟩ := alter_ok hc
  exact h.put_same he id (mode_bits mode) (h.length k e he)

theorem chown_wellFormed {uid gid : Int} (hc : chown k uid gid v = .ok v') : v'.WellFormed := by
  obtain ⟨e, he, rfl⟩ := alter_ok hc
  exact h.put_same he id (h.mode k e he) (h.length k e he)

theorem writeAt_wellFormed {offset : Nat} {bytes : List Byte}
    (hw : writeAt k offset bytes v = .ok v') : v'.WellFormed := by
  obtain ⟨data, mode, uid, gid, he, hl, rfl⟩ := writeAt_ok hw
  refine h.put_same he (fun hc => by cases hc) (h.mode k ⟨.file data, mode, uid, gid⟩ he) ?_
  have hold := h.length k _ he
  simp only [Content.length] at hold ⊢
  rw [overwrite_length]
  omega

end Changes

inductive Effect : Call → Volume → Volume → Prop
  | quiet {call : Call} {v v' : Volume} (he : v'.entries = v.entries)
      (ha : v'.attributes = v.attributes) : Effect call v v'
  /-- An entry is new or changed, and a well-formed volume stays so. -/
  | put {call : Call} {v : Volume} (k : Key) (e : Entry)
      (hkeeps : v.WellFormed → (v.put k e).WellFormed) : Effect call v (v.put k e)
  | delete {path : String} {v v' : Volume} (h : delete (.ofText path) v = .ok v') :
      Effect (.delete path) v v'
  | rename {source target : String} {v v' : Volume}
      (h : rename (.ofText source) (.ofText target) v = .ok v') :
      Effect (.rename source target) v v'
  | setAttribute (path name value : String) (v : Volume) :
      Effect (.setAttribute path name value) v (v.setAttribute (.ofText path) name value)

namespace Effect

variable {call : Call} {v v' : Volume} {k : Key}

theorem of_add {content : Content} {mode : UInt32} (hk : k.Normal) (hmode : mode ≤ 0o7777)
    (hlen : content.length ≤ longest) (h : add k content mode v = .ok v') : Effect call v v' := by
  have hkeeps := fun hv : v.WellFormed => add_wellFormed hv hk hmode hlen h
  obtain ⟨-, -, -, -, -, -, rfl⟩ := add_ok h
  exact .put _ _ hkeeps

theorem of_alter {change : Entry → Entry} (h : alter k change v = .ok v')
    (hkeeps : v.WellFormed → v'.WellFormed) : Effect call v v' := by
  obtain ⟨e, -, rfl⟩ := alter_ok h
  exact .put _ _ hkeeps

theorem of_writeAt {offset : Nat} {bytes : List Byte} (h : writeAt k offset bytes v = .ok v') :
    Effect call v v' := by
  have hkeeps := fun hv : v.WellFormed => writeAt_wellFormed hv h
  obtain ⟨data, mode, uid, gid, -, -, rfl⟩ := writeAt_ok h
  exact .put _ _ hkeeps

theorem of_update {f : Volume → Except Fault Volume} {w : World}
    (hf : ∀ v, f w.volume = .ok v → Effect call w.volume v) :
    Effect call w.volume (outcome (update f) w).2.volume := by
  rw [outcome_update]
  cases hv : f w.volume with
  | error fault => exact .quiet rfl rfl
  | ok v => exact hf v hv

theorem wellFormed (h : Effect call v v') (hv : v.WellFormed) : v'.WellFormed := by
  cases h with
  | quiet he _ => exact hv.of_entries he
  | put k e hkeeps => exact hkeeps hv
  | delete hd => exact delete_wellFormed hv hd
  | rename hr => exact rename_wellFormed hv (Key.ofText_normal _) hr
  | setAttribute path name value v => exact hv.of_entries rfl

end Effect

theorem step_effect (call : Call) (s : Use) :
    Effect call s.world.volume (call.step s).world.volume := by
  cases call with
  | createFile path =>
    exact .of_update fun v hv => .of_add (Key.ofText_normal path) (by decide) (Nat.zero_le _) hv
  | makeDirectory path =>
    exact .of_update fun v hv => .of_add (Key.ofText_normal path) (by decide) (Nat.zero_le _) hv
  | delete path => exact .of_update fun v hv => .delete hv
  | rename source target => exact .of_update fun v hv => .rename hv
  | chmod path mode =>
    exact .of_update fun v hv => .of_alter hv fun h => chmod_wellFormed h hv
  | chown path uid gid =>
    exact .of_update fun v hv => .of_alter hv fun h => chown_wellFormed h hv
  | openWriter path =>
    simp only [Call.step, Use.opened]
    cases hr : outcome (VolumeAccess.openWriter (Key.ofText path)) s.world with
    | mk result world =>
      obtain rfl : world = s.world := congrArg Prod.snd hr.symm
      cases result <;> exact .quiet rfl rfl
  | write i bytes =>
    simp only [Call.step, Use.onWriter]
    cases s.writers[i]? with
    | none => exact .quiet rfl rfl
    | some w =>
      simp only [acted_write]
      cases hv : writeAt w.key w.position.toNat bytes s.world.volume with
      | error e => exact .quiet rfl rfl
      | ok v => exact .of_writeAt hv
  | seek i place =>
    simp only [Call.step, Use.onWriter]
    cases s.writers[i]? with
    | none => exact .quiet rfl rfl
    | some w =>
      dsimp only
      rw [acted_seek_world]
      exact .quiet rfl rfl
  | refuseRenames on => exact .quiet rfl rfl
  | setAttribute path name value => exact .setAttribute path name value _

theorem calls_wellFormed (cs : List Call) (s : Use) (h : s.world.volume.WellFormed) :
    (calls cs s).world.volume.WellFormed := by
  induction cs generalizing s with
  | nil => exact h
  | cons call rest ih => exact ih _ ((step_effect call s).wellFormed h)

theorem Reachable.wellFormed {v : Volume} (h : v.Reachable) : v.WellFormed := by
  obtain ⟨name, uid, gid, world, cs, rfl⟩ := h
  exact calls_wellFormed cs _ (empty_wellFormed name uid gid)

/-- A slash alone, or a slash before each of one or more names and none at the end. -/
def NormalText (s : String) : Prop :=
  s = "/" ∨ ∃ names, names ≠ [] ∧ (∀ n ∈ names, IsName n) ∧
    Text.fields '/' s.toList = [] :: names.map String.toList

theorem normalText_of_normal {k : Key} (h : k.Normal) : NormalText k.text := by
  by_cases hne : k.names = []
  · obtain ⟨names⟩ := k
    obtain rfl : names = [] := hne
    exact .inl rfl
  · exact .inr ⟨k.names, hne, h, Key.text_fields h hne⟩

/-- However a volume came to be used since it was empty, its entries form a tree. -/
theorem calls_form_tree (name : String) (uid gid : UInt32) (world : World) (cs : List Call) :
    let v := (calls cs (.start name uid gid world)).world.volume
    (∃ e, v.find? (Key.ofText "/") = some e ∧ e.content = .directory) ∧
    ∀ k e, v.find? k = some e →
      NormalText k.text ∧
      (k.text ≠ "/" → ∃ p d, k.parent? = some p ∧ v.find? p = some d ∧ d.content = .directory) ∧
      e.mode ≤ 0o7777 := by
  intro v
  have h : v.WellFormed := calls_wellFormed cs _ (empty_wellFormed name uid gid)
  refine ⟨h.root, fun k e hk => ⟨?_, ?_, h.mode k e hk⟩⟩
  · exact normalText_of_normal (h.normal k.names hk)
  · intro hne
    rcases key_cases k with rfl | ⟨x, n, rfl⟩
    · exact absurd Key.root_text hne
    · obtain ⟨d, hd, hdir⟩ := h.above x n e hk
      exact ⟨⟨x⟩, d, key_parent x n, hd, hdir⟩

end VolumeFS.Volume
