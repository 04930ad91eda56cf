import VolumeFS.Clock
import VolumeFS.Command.Script
import VolumeFS.Disk.Access
import VolumeFS.Stream.Statistics
import VolumeFS.Volume.Access

/-!
# Everything a file system acts on

A `World` puts together a volume, a disk, scripted commands, a virtual clock and
the statistics of the streams. Runs in it are functions of the world alone.
-/

set_option autoImplicit false

namespace VolumeFS

structure World where
  volume : Volume
  disk : Disk
  script : Script
  clock : VirtualClock
  statistics : Statistics
  /-- The servers and volumes that were connected to, the latest first. -/
  connections : List (String × String)
  deriving Inhabited

abbrev Run := StateM World

namespace World

def ofDisk (disk : Disk) : World :=
  ⟨.empty "" 0 0, disk, .empty, ⟨0⟩, .zero, []⟩

def onPart {α β : Type} (get : World → α) (set : World → α → World) (f : α → β × α) : Run β :=
  fun w =>
    let (b, a) := f (get w)
    (b, set w a)

instance : MonadStateOf Volume Run where
  get := onPart volume (fun w _ => w) fun v => (v, v)
  set v := onPart volume (fun w volume => { w with volume }) fun _ => ((), v)
  modifyGet f := onPart volume (fun w volume => { w with volume }) f

instance : MonadStateOf Disk Run where
  get := onPart disk (fun w _ => w) fun d => (d, d)
  set d := onPart disk (fun w disk => { w with disk }) fun _ => ((), d)
  modifyGet f := onPart disk (fun w disk => { w with disk }) f

instance : MonadStateOf Script Run where
  get := onPart script (fun w _ => w) fun s => (s, s)
  set s := onPart script (fun w script => { w with script }) fun _ => ((), s)
  modifyGet f := onPart script (fun w script => { w with script }) f

instance : MonadStateOf VirtualClock Run where
  get := onPart clock (fun w _ => w) fun c => (c, c)
  set c := onPart clock (fun w clock => { w with clock }) fun _ => ((), c)
  modifyGet f := onPart clock (fun w clock => { w with clock }) f

instance : MonadStateOf Statistics Run where
  get := onPart statistics (fun w _ => w) fun s => (s, s)
  set s := onPart statistics (fun w statistics => { w with statistics }) fun _ => ((), s)
  modifyGet f := onPart statistics (fun w statistics => { w with statistics }) f

/-- Connects to the volume of the world, whichever was asked for, and gives its name. -/
def connect (server volume : String) : ExceptT Fault Run String :=
  ExceptT.mk fun w =>
    (.ok w.volume.name, { w with connections := (server, volume) :: w.connections })

end World

end VolumeFS
