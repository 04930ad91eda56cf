import VolumeFS.Proofs.Command.Follows
import VolumeFS.Proofs.Numeral

/-!
# Names of owners and groups

The calls that are given owners or groups run the commands that are planned for
them, on any volume, any disk and with any answers. A command that gives a file
away takes the name for a name. One that looks up a number takes a name that begins
with a dash for an option, and what it answers then is taken for the number.
-/

set_option autoImplicit false

namespace VolumeFS

inductive Naming where
  | chown (path user : String) (group : Option String)
  | chgrp (path group : String)
  | userId (user : String)
  | groupId (group : String)
  | ofClient (c : Client SiteRun) (p : Path) (owner group : Option String)
  | ofMount (t : Mount SiteRun) (p : Path) (owner group : Option String)

namespace Naming

/-- What the call does. What it returns does not matter here. -/
def perform : Naming → ExceptT Fault SiteRun Unit
  | .chown path user group => Shell.chown path user group
  | .chgrp path group => Shell.chgrp path group
  | .userId user => do let _ ← Shell.userId user
  | .groupId group => do let _ ← Shell.groupId group
  | .ofClient c p owner group => c.setOwner p owner group
  | .ofMount t p owner group => t.setOwner p owner group

def lookUp {number : Type} (read : String → Option number) (given : String → Given)
    (name : String) : List Given :=
  if (read name).isSome then [] else [given name]

/-- A client looks up each side that is asked for and reads more numbers than the commands do. -/
def lookUps (owner group : Option String) : List Given :=
  owner.elim [] (lookUp Text.int64? .forUser) ++ group.elim [] (lookUp Text.int64? .forGroup)

def giving (file : String) : Option String → Option String → List Given
  | some owner, group => [.toUser file owner group]
  | none, some group => [.toGroup file group]
  | none, none => []

def givingAt (t : Mount SiteRun) (p : Path) (owner group : Option String) : List Given :=
  match t.logical p with
  | .ok q => giving (t.localPath q) owner group
  | .error _ => []

def plan : Naming → List Given
  | .chown path user group => [.toUser path user group]
  | .chgrp path group => [.toGroup path group]
  | .userId user => lookUp Text.uint32? .forUser user
  | .groupId group => lookUp Text.uint32? .forGroup group
  | .ofClient _ _ owner group => lookUps owner group
  | .ofMount t p owner group => givingAt t p owner group

end Naming

namespace Shell

variable {σ : Type} [Commands (StateM σ)]

theorem finding_userId (user : String) :
    Finding (Text.uint32? user) "id" ["-u", user]
      (fun output => Text.uint32? (Text.trim output))
      (userId user : ExceptT Fault (StateM σ) UInt32) := by
  constructor
  · intro n h
    rw [userId, h]
  · intro h
    refine ⟨_, by rw [userId, h], ?_, ?_⟩
    · intro output n hread
      rw [hread]
    · intro output hread
      rw [hread]
      exact ⟨_, rfl⟩

theorem finding_groupId (group : String) :
    Finding (Text.uint32? group) "getent" ["group", group] groupNumber?
      (groupId group : ExceptT Fault (StateM σ) UInt32) := by
  constructor
  · intro n h
    rw [groupId, h]
  · intro h
    refine ⟨_, by rw [groupId, h], ?_, ?_⟩
    · intro output n hread
      rw [hread]
    · intro output hread
      rw [hread]
      exact ⟨_, rfl⟩

end Shell

section Plan

open Shell

theorem follows_finding {β : Type} {g : Given} {written : Option β} {read : String → Option β}
    {x : ExceptT Fault SiteRun β}
    (h : Finding written g.program (g.before ++ g.name :: g.after) read x) :
    Follows (if written.isSome then [] else [g]) x := by
  cases written with
  | some b =>
    rw [h.known b rfl]
    exact follows_of_except (.ok b)
  | none =>
    obtain ⟨f, rfl, hsome, hnone⟩ := h.unknown rfl
    apply follows_then (follows_exec g)
    intro text
    cases hread : read text with
    | none =>
      obtain ⟨fault, hfault⟩ := hnone text hread
      rw [hfault]
      exact follows_of_except (.error fault)
    | some b =>
      rw [hsome text b hread]
      exact follows_of_except (.ok b)

theorem follows_userId (user : String) :
    Follows (Naming.lookUp Text.uint32? .forUser user)
      (Shell.userId user : ExceptT Fault SiteRun UInt32) :=
  follows_finding (g := .forUser user) (finding_userId user)

theorem follows_groupId (group : String) :
    Follows (Naming.lookUp Text.uint32? .forGroup group)
      (Shell.groupId group : ExceptT Fault SiteRun UInt32) :=
  follows_finding (g := .forGroup group) (finding_groupId group)

/-- A client reads numbers of 64 bits and looks up all else. -/
theorem follows_number {look : String → ExceptT Fault SiteRun UInt32} {given : String → Given}
    (hlook : ∀ name, Follows (Naming.lookUp Text.uint32? given name) (look name)) (name : String) :
    Follows (Naming.lookUp Text.int64? given name)
      (match Text.int64? name with
        | some n => pure n
        | none => do return ((← look name).toNat : Int)) := by
  unfold Naming.lookUp
  cases hread : Text.int64? name with
  | some n => exact follows_of_except (.ok n)
  | none =>
    -- what is no number here is none to the lookup either, which therefore runs its command
    have h := hlook name
    unfold Naming.lookUp at h
    rw [Text.uint32?_eq_none hread] at h
    exact follows_then h fun _ => follows_of_except _

theorem quiet_requireStat (k : Volume.Key) :
    Follows [] (Volume.requireStat k : ExceptT Fault SiteRun Volume.Stat) := by
  unfold Volume.requireStat
  apply follows_then (follows_nil fun _ => rfl)
  intro st?
  cases st? <;> exact follows_of_except _

theorem quiet_update (f : Volume → Except Fault Volume) :
    Follows [] (Volume.update f : ExceptT Fault SiteRun Unit) := by
  apply follows_nil
  intro s
  rfl

theorem follows_clientSetOwner (c : Client SiteRun) (p : Path) (owner group : Option String) :
    Follows (Naming.lookUps owner group) (c.setOwner p owner group) := by
  unfold Client.setOwner
  by_cases hnone : (owner.isNone && group.isNone) = true
  · rw [if_pos hnone]
    obtain ⟨rfl, rfl⟩ : owner = none ∧ group = none := by simpa using hnone
    exact follows_of_except _
  rw [if_neg hnone]
  apply follows_after (follows_of_except (c.resolver.resolve p))
  intro _ q _ _
  apply follows_after (quiet_requireStat _)
  intro _ st _ _
  rcases owner with _ | owner
  · rcases group with _ | group
    · exact absurd rfl hnone
    · apply follows_after (follows_of_except _)
      intro _ _ _ _
      exact follows_then (follows_number follows_groupId group) fun _ => quiet_update _
  · apply follows_bind (follows_number follows_userId owner)
    intro _ uid _ _
    rcases group with _ | group
    · exact follows_then (follows_of_except _) fun _ => quiet_update _
    · exact follows_then (follows_number follows_groupId group) fun _ => quiet_update _

theorem follows_chown (path user : String) (group : Option String) :
    Follows [.toUser path user group] (chown path user group : ExceptT Fault SiteRun Unit) := by
  unfold chown
  cases group with
  | none => exact follows_then (follows_exec (.toUser path user none)) fun _ => follows_of_except _
  | some group =>
    exact follows_then (follows_exec (.toUser path user (some group))) fun _ =>
      follows_of_except _

theorem follows_chgrp (path group : String) :
    Follows [.toGroup path group] (chgrp path group : ExceptT Fault SiteRun Unit) :=
  follows_then (follows_exec (.toGroup path group)) fun _ => follows_of_except _

theorem quiet_enter (t : Mount SiteRun) (p : Path) : Follows [] (t.enter p) := by
  unfold Mount.enter Mount.requireMounted
  apply follows_then
  · split <;> exact follows_of_except _
  · exact fun _ => follows_of_except _

theorem quiet_metadata (t : Mount SiteRun) (p : Path) : Follows [] (t.metadata p) := by
  apply follows_nil
  intro s
  rfl

theorem enter_returns {t : Mount SiteRun} {p q : Path} {s s' : Site}
    (h : ending (t.enter p) s = (.ok q, s')) : t.logical p = .ok q := by
  unfold Mount.enter Mount.requireMounted at h
  by_cases hphase : t.phase = .mounted
  · rw [if_pos hphase] at h
    exact congrArg Prod.fst h
  · rw [if_neg hphase] at h
    cases h

theorem follows_mountSetOwner (t : Mount SiteRun) (p : Path) (owner group : Option String) :
    Follows (Naming.givingAt t p owner group) (t.setOwner p owner group) := by
  unfold Mount.setOwner
  by_cases hnone : (owner.isNone && group.isNone) = true
  · rw [if_pos hnone]
    obtain ⟨rfl, rfl⟩ : owner = none ∧ group = none := by simpa using hnone
    have hplan : Naming.givingAt t p none none = [] := by
      unfold Naming.givingAt
      cases t.logical p <;> rfl
    rw [hplan]
    exact follows_of_except _
  rw [if_neg hnone]
  apply follows_after (quiet_enter t p)
  intro s q s' henter
  -- the plan has the file where the mount sees the path, and so has what entering returned
  have hplan : Naming.givingAt t p owner group = Naming.giving (t.localPath q) owner group := by
    unfold Naming.givingAt
    rw [enter_returns henter]
  rw [hplan]
  apply follows_after (quiet_metadata t q)
  intro _ _ _ _
  rcases owner with _ | owner
  · rcases group with _ | group
    · exact follows_of_except _
    · exact follows_chgrp _ group
  · exact follows_chown _ owner group

theorem follows_plan (call : Naming) : Follows call.plan call.perform := by
  cases call with
  | chown path user group => exact follows_chown path user group
  | chgrp path group => exact follows_chgrp path group
  | userId user => exact follows_then (follows_userId user) fun _ => follows_of_except _
  | groupId group => exact follows_then (follows_groupId group) fun _ => follows_of_except _
  | ofClient c p owner group => exact follows_clientSetOwner c p owner group
  | ofMount t p owner group => exact follows_mountSetOwner t p owner group

end Plan

section Operands

open Given

def Naming.LooksUpDashed : Naming → Prop
  | .userId name | .groupId name => IsDashed name ∧ Text.uint32? name = none
  | .ofClient _ _ owner group =>
    ∃ name, (owner = some name ∨ group = some name) ∧ IsDashed name ∧ Text.int64? name = none
  | _ => False

theorem isOperand_toUser (path user : String) (group : Option String) :
    (toUser path user group).IsOperand := .inr (List.mem_singleton.2 rfl)

theorem isOperand_toGroup (path group : String) : (toGroup path group).IsOperand :=
  .inr (List.mem_singleton.2 rfl)

theorem isOperand_forUser (user : String) : (forUser user).IsOperand ↔ ¬ IsDashed user :=
  or_iff_left (by decide : "--" ∉ ["-u"])

theorem isOperand_forGroup (group : String) : (forGroup group).IsOperand ↔ ¬ IsDashed group :=
  or_iff_left (by decide : "--" ∉ ["group"])

theorem operands_giving (file : String) (owner group : Option String) :
    ∀ g ∈ Naming.giving file owner group, g.IsOperand := by
  intro g hg
  rcases owner with _ | owner
  · rcases group with _ | group
    · exact absurd hg List.not_mem_nil
    · obtain rfl := List.mem_singleton.1 hg
      exact isOperand_toGroup file group
  · obtain rfl := List.mem_singleton.1 hg
    exact isOperand_toUser file owner group

section LookUp

variable {number : Type} {read : String → Option number} {given : String → Given}
  (hgiven : ∀ name, (given name).IsOperand ↔ ¬ IsDashed name)

include hgiven

theorem operands_lookUp (name : String) :
    (∀ g ∈ Naming.lookUp read given name, g.IsOperand) ↔
      ¬ (IsDashed name ∧ read name = none) := by
  unfold Naming.lookUp
  cases read name <;> simp [hgiven]

theorem operands_side (asked : Option String) :
    (∀ g ∈ asked.elim [] (Naming.lookUp read given), g.IsOperand) ↔
      ¬ ∃ name, asked = some name ∧ IsDashed name ∧ read name = none := by
  cases asked with
  | none => simp
  | some name => simpa using operands_lookUp hgiven name

end LookUp

theorem operands_plan_iff (call : Naming) :
    (∀ g ∈ call.plan, g.IsOperand) ↔ ¬ call.LooksUpDashed := by
  cases call with
  | chown path user group =>
    exact iff_of_true (List.forall_mem_singleton.2 (isOperand_toUser path user group)) nofun
  | chgrp path group =>
    exact iff_of_true (List.forall_mem_singleton.2 (isOperand_toGroup path group)) nofun
  | userId user => exact operands_lookUp isOperand_forUser user
  | groupId group => exact operands_lookUp isOperand_forGroup group
  | ofClient c p owner group =>
    unfold Naming.plan Naming.lookUps Naming.LooksUpDashed
    rw [List.forall_mem_append, operands_side isOperand_forUser, operands_side isOperand_forGroup,
      ← not_or, ← exists_or]
    simp only [or_and_right]
  | ofMount t p owner group =>
    apply iff_of_true _ nofun
    intro g hg
    change g ∈ Naming.givingAt t p owner group at hg
    unfold Naming.givingAt at hg
    cases hq : t.logical p with
    | error fault =>
      rw [hq] at hg
      exact absurd hg List.not_mem_nil
    | ok q =>
      rw [hq] at hg
      exact operands_giving _ owner group g hg

end Operands

/-- On every site and with any answers a call runs the commands that are planned for its names. They
are all given their names as names, unless the call looks up one that begins with a dash. The number
of a name is the one that is written, or whatever the lookup answers. -/
theorem names_given (call : Naming) (s : Site) :
    (∃ done, done <+: call.plan ∧
      (ending call.perform s).2.commands = s.commands ++ done.map Given.command ∧
      ((ending call.perform s).1 = .ok () → done = call.plan)) ∧
    ((∀ g ∈ call.plan, g.IsOperand) ↔ ¬ call.LooksUpDashed) ∧
    (∀ user n, (ending (Shell.userId user) s).1 = .ok n ↔
      Text.uint32? user = some n ∨ Text.uint32? user = none ∧
        Shell.Finds "id" ["-u", user] (fun output => Text.uint32? (Text.trim output)) s n) ∧
    ∀ group n, (ending (Shell.groupId group) s).1 = .ok n ↔
      Text.uint32? group = some n ∨ Text.uint32? group = none ∧
        Shell.Finds "getent" ["group", group] Shell.groupNumber? s n := by
  refine ⟨?_, operands_plan_iff call, fun user => (Shell.finding_userId user).eq_ok_iff s,
    fun group => (Shell.finding_groupId group).eq_ok_iff s⟩
  obtain ⟨done, hprefix, hcommands, hall⟩ := follows_plan call s
  exact ⟨done, hprefix, hcommands, hall ()⟩

/-- How `id` reads its arguments: the names among them, or nothing if one of them is an option that
it does not have. -/
def namesAsked : List String → Option (List String)
  | [] => some []
  | arg :: args =>
    if arg = "--" then some args
    else if arg = "-u" ∨ arg = "-r" then namesAsked args
    else if arg.toList.head? = some '-' then none
    else (namesAsked args).map (arg :: ·)

/-- The answer of `id` where the caller has the number 0 and one user is known. -/
def identify (args : List String) : CommandOutput :=
  match namesAsked args with
  | some [] => ⟨some 0, "0\n", ""⟩
  | some ["amy"] => ⟨some 0, "1001\n", ""⟩
  | _ => ⟨some 1, "", "id: no such user\n"⟩

/-- A volume of user 7 on a host where only `id` is run. -/
def household : Site where
  volume := .empty "v" 7 7
  host := {
    disk := .ofDirectories []
    runner := fun _ d _ args => (.ok (identify args), d)
    deeds := [] }

def steward : Client SiteRun := ⟨"v", "h", 4096, ⟨Path.volumeScheme, .root⟩, .broken "", .root⟩

/-- There is no user `-r`. Asked for one, the command answers with the number of the caller, and the
volume is given to that one. -/
theorem caller_taken :
    ¬ (Given.forUser "-r").IsOperand ∧
      identify ["-u", "--", "-r"] = ⟨some 1, "", "id: no such user\n"⟩ ∧
      (ending (Shell.userId "-r") household).1 = .ok 0 ∧
      (ending (steward.setOwner .root (some "-r") none) household).2.commands =
        [("id", ["-u", "-r"])] ∧
      (ending (steward.setOwner .root (some "-r") none) household).2.volume.find? Volume.Key.root =
        some ⟨.directory, 0o755, 0, 7⟩ := by
  refine ⟨?_, by decide, rfl, rfl, rfl⟩
  intro hoperand
  exact (isOperand_forUser "-r").1 hoperand rfl

end VolumeFS
