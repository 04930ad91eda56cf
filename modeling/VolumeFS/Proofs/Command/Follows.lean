import VolumeFS.Proofs.Command.Answer
import VolumeFS.Proofs.Mount.Host

/-!
# Commands that are given names

A volume and a host can be used by one call. What a call does with commands is
laid down as a plan, a list of commands that are given names, and following a plan
means to run these in order and nothing else, with any answers. Plans follow on
each other as the operations do.

A command reads an argument that begins with a dash as an option, unless a `--`
stands before it.
-/

set_option autoImplicit false

namespace VolumeFS

/-- A volume, and a host with a disk on which commands are run. -/
structure Site where
  volume : Volume
  host : Host

abbrev SiteRun := StateM Site

namespace Site

variable {α : Type}

def onVolume (f : Volume → α × Volume) : SiteRun α :=
  fun s => ((f s.volume).1, { s with volume := (f s.volume).2 })

def onHost (x : HostRun α) : SiteRun α :=
  fun s => ((x s.host).1, { s with host := (x s.host).2 })

end Site

instance : MonadStateOf Volume SiteRun where
  get := Site.onVolume fun v => (v, v)
  set v := Site.onVolume fun _ => ((), v)
  modifyGet := Site.onVolume

instance : MonadStateOf Disk SiteRun where
  get := Site.onHost (getThe Disk)
  set d := Site.onHost (MonadStateOf.set d)
  modifyGet f := Site.onHost (modifyGetThe Disk f)

instance : Commands SiteRun where
  run program args := Site.onHost (Commands.run program args)

def Deed.command? : Deed → Option (String × List String)
  | .command program args _ => some (program, args)
  | .access => none

def Site.commands (s : Site) : List (String × List String) :=
  (s.host.deeds.filterMap Deed.command?).reverse

/-- A command that is given names: what stands before the argument with the names, and after it. -/
structure Given where
  program : String
  before : List String
  name : String
  after : List String

namespace Given

def command (g : Given) : String × List String := (g.program, g.before ++ g.name :: g.after)

def IsDashed (text : String) : Prop := text.toList.head? = some '-'

/-- The argument with the names is not read as an option. -/
def IsOperand (g : Given) : Prop := ¬ IsDashed g.name ∨ "--" ∈ g.before

def toUser (path user : String) (group : Option String) : Given :=
  ⟨"chown", ["--"], group.elim user fun group => s!"{user}:{group}", [path]⟩

def toGroup (path group : String) : Given := ⟨"chgrp", ["--"], group, [path]⟩

def forUser (user : String) : Given := ⟨"id", ["-u"], user, []⟩

def forGroup (group : String) : Given := ⟨"getent", ["group"], group, []⟩

end Given

section Follows

variable {α β : Type}

/-- Whatever is answered, the operation runs the planned commands in order and no others. Only if it
fails some of the last may be left out. -/
def Follows (plan : List Given) (x : ExceptT Fault SiteRun α) : Prop :=
  ∀ s, ∃ done, done <+: plan ∧
    (ending x s).2.commands = s.commands ++ done.map Given.command ∧
    ∀ a, (ending x s).1 = .ok a → done = plan

theorem follows_nil {x : ExceptT Fault SiteRun α}
    (h : ∀ s, (ending x s).2.commands = s.commands) : Follows [] x := by
  intro s
  exact ⟨[], List.nil_prefix, by rw [h, List.map_nil, List.append_nil], fun _ _ => rfl⟩

theorem follows_of_except (result : Except Fault α) :
    Follows [] (ExceptT.mk (pure result) : ExceptT Fault SiteRun α) :=
  follows_nil fun _ => rfl

/-- What comes after an operation may depend on what this returns. -/
theorem follows_bind {plan rest : List Given} {x : ExceptT Fault SiteRun α}
    {f : α → ExceptT Fault SiteRun β} (hx : Follows plan x)
    (hf : ∀ s a s', ending x s = (.ok a, s') → Follows rest (f a)) :
    Follows (plan ++ rest) (x >>= f) := by
  intro s
  obtain ⟨done, hprefix, hcommands, hall⟩ := hx s
  rw [ending_bind]
  rcases hrun : ending x s with ⟨fault | a, s'⟩
  · rw [hrun] at hcommands
    exact ⟨done, hprefix.trans (List.prefix_append plan rest), hcommands, nofun⟩
  · rw [hrun] at hcommands hall
    obtain rfl := hall a rfl
    obtain ⟨done', hprefix', hcommands', hall'⟩ := hf s a s' hrun s'
    refine ⟨done ++ done', (List.prefix_append_right_inj done).2 hprefix', ?_, fun b hb => ?_⟩
    · change (ending (f a) s').2.commands = _
      rw [hcommands', hcommands, List.map_append, List.append_assoc]
    · rw [hall' b hb]

theorem follows_after {rest : List Given} {x : ExceptT Fault SiteRun α}
    {f : α → ExceptT Fault SiteRun β} (hx : Follows [] x)
    (hf : ∀ s a s', ending x s = (.ok a, s') → Follows rest (f a)) : Follows rest (x >>= f) :=
  follows_bind hx hf

/-- What an operation ends with runs no command. -/
theorem follows_then {plan : List Given} {x : ExceptT Fault SiteRun α}
    {f : α → ExceptT Fault SiteRun β} (hx : Follows plan x) (hf : ∀ a, Follows [] (f a)) :
    Follows plan (x >>= f) := by
  have h := follows_bind hx fun _ a _ _ => hf a
  rwa [List.append_nil] at h

end Follows

namespace Shell

theorem asked_commands (program : String) (args : List String) (s : Site) :
    (asked program args s).2.commands = s.commands ++ [(program, args)] := by
  change ((program, args) :: s.host.deeds.filterMap Deed.command?).reverse = _
  rw [List.reverse_cons]
  rfl

theorem follows_exec (g : Given) :
    Follows [g]
      (exec g.program (g.before ++ g.name :: g.after) [] : ExceptT Fault SiteRun String) := by
  intro s
  refine ⟨[g], List.prefix_rfl, ?_, fun _ _ => rfl⟩
  rw [exec_ending, asked_commands]
  rfl

end Shell

end VolumeFS
