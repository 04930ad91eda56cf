import VolumeFS.Proofs.Client.Exposed
import VolumeFS.Proofs.Stream.Calm

/-!
# A client of a volume whose calls do not fail

In an exposed world without failures a client opens files as in the world inside.
Neither counts anything.
-/

set_option autoImplicit false

namespace VolumeFS

open Volume Exposed

namespace Client

section Tree

theorem echoes_kind (p : Path) :
    Echoes ((tree : Tree ExposedRun).kind p) ((tree : Tree Run).kind p) :=
  echoes_bind (echoes_look _) fun _ => echoes_pure _

theorem echoes_makeOnce (p : Path) :
    Echoes ((tree : Tree ExposedRun).makeOnce p) ((tree : Tree Run).makeOnce p) := by
  refine echoes_bind (echoes_attempt (echoes_update _)) fun result => ?_
  cases result with
  | ok => exact echoes_pure _
  | error fault => exact echoes_bind (echoes_kind p) fun _ => echoes_pure _

theorem echoes_makeTrying (p : Path) (left attempts : Nat) :
    Echoes ((tree : Tree ExposedRun).makeTrying p attempts left)
      ((tree : Tree Run).makeTrying p attempts left) := by
  induction left generalizing attempts with
  | zero =>
    refine echoes_bind (echoes_makeOnce p) fun fault? => ?_
    cases fault? with
    | none => exact echoes_pure _
    | some fault => exact echoes_throw fault
  | succ left ih =>
    refine echoes_bind (echoes_makeOnce p) fun fault? => ?_
    cases fault? with
    | none => exact echoes_pure _
    | some fault => exact echoes_bind (echoes_pause _) fun _ => ih (attempts + 1)

theorem echoes_makeAll (directories : List Path) :
    Echoes ((tree : Tree ExposedRun).makeAll directories)
      ((tree : Tree Run).makeAll directories) := by
  induction directories with
  | nil => exact echoes_pure _
  | cons directory rest ih =>
    refine echoes_bind (echoes_kind directory) fun kind? => ?_
    match kind? with
    | some .directory => exact ih
    | some .file => exact echoes_throw _
    | none => exact echoes_bind (echoes_makeTrying directory _ _) fun _ => ih

theorem echoes_ensureParent (p : Path) :
    Echoes ((tree : Tree ExposedRun).ensureParent p) ((tree : Tree Run).ensureParent p) := by
  unfold Tree.ensureParent
  cases p.parent? with
  | none => exact echoes_pure _
  | some parent => exact echoes_ite (echoes_pure _) (echoes_makeAll parent.lineage)

end Tree

variable (c : Client ExposedRun) (p : Path)

theorem echoes_clear (overwrite : Bool) :
    Echoes (clear (m := ExposedRun) p overwrite) (clear (m := Run) p overwrite) := by
  refine echoes_bind (echoes_look _) fun st? => ?_
  cases st? with
  | none => exact echoes_pure _
  | some st =>
    refine echoes_ite (echoes_throw _) ?_
    exact echoes_ite (echoes_throw _) (echoes_update _)

theorem echoes_permit (permission : Option Permission) :
    Echoes (permit (m := ExposedRun) p permission) (permit (m := Run) p permission) := by
  cases permission with
  | none => exact echoes_pure _
  | some permission => exact echoes_update _

theorem echoes_create (options : CreateOptions) :
    Echoes (c.create p options) (c.unexposed.create p options) := by
  refine echoes_bind (echoes_of_except _) fun q => ?_
  refine echoes_bind (echoes_clear q _) fun _ => ?_
  refine echoes_bind (echoes_ensureParent q) fun _ => ?_
  refine echoes_bind (echoes_update _) fun _ => ?_
  refine echoes_bind (echoes_permit q _) fun _ => ?_
  exact echoes_bind (echoes_look _) fun _ => echoes_pure _

theorem echoes_append : Echoes (c.append p) (c.unexposed.append p) := by
  refine echoes_bind (echoes_of_except _) fun q => ?_
  refine echoes_bind (echoes_look _) fun st? => ?_
  refine echoes_bind (echoes_of_except _) fun st => ?_
  refine echoes_bind (echoes_look _) fun writer => ?_
  refine echoes_bind (echoes_orFault (fun writer w => ?_) writer) fun _ => echoes_pure _
  rw [acted_seek_world]

theorem echoes_openFile : Echoes (c.openFile p) (c.unexposed.openFile p) := by
  refine echoes_bind (echoes_of_except _) fun q => ?_
  refine echoes_bind (echoes_look _) fun st? => ?_
  refine echoes_bind (echoes_of_except _) fun _ => ?_
  exact echoes_bind (echoes_look _) fun _ => echoes_pure _

end Client

end VolumeFS
