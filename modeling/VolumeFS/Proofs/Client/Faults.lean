import VolumeFS.Proofs.Client.Endless
import VolumeFS.Proofs.Client.Opening
import VolumeFS.Proofs.Client.Rename

/-!
# Calls that fail change nothing

A call of a client takes several steps on the volume. Steps that only look come
first, and once one has changed the volume no later one fails: the tree of the
volume and what was looked at before see to that. So a call that ends in a fault
leaves the volume as it was.
-/

set_option autoImplicit false

namespace VolumeFS

open Volume

namespace Client

section Kinds

variable {α β : Type}

def Looks (x : ExceptT Fault Run α) : Prop :=
  ∀ w, (outcome x w).2.volume = w.volume

def KeepsOnFault (x : ExceptT Fault Run α) (w : World) : Prop :=
  ∀ fault w', outcome x w = (.error fault, w') → w'.volume = w.volume

theorem looks_of_except (result : Except Fault α) : Looks (ExceptT.mk (pure result)) :=
  fun _ => rfl

theorem looks_throw (fault : Fault) : Looks (throw fault : ExceptT Fault Run α) := fun _ => rfl

theorem looks_pure (a : α) : Looks (pure a) := fun _ => rfl

theorem looks_bind {x : ExceptT Fault Run α} {f : α → ExceptT Fault Run β} (hx : Looks x)
    (hf : ∀ a, Looks (f a)) : Looks (x >>= f) :=
  outcome_bind_keeps World.volume hx hf

theorem Looks.keeps {x : ExceptT Fault Run α} (h : Looks x) (w : World) : KeepsOnFault x w := by
  intro fault w' hx
  have hw := h w
  rwa [hx] at hw

theorem keeps_of_ok {x : ExceptT Fault Run α} {a : α} {w w' : World}
    (h : outcome x w = (.ok a, w')) : KeepsOnFault x w := by
  intro fault w'' hx
  rw [h] at hx
  cases hx

theorem keeps_of_error {x : ExceptT Fault Run α} {fault : Fault} {w : World}
    (h : outcome x w = (.error fault, w)) : KeepsOnFault x w := by
  intro fault' w' hx
  rw [h] at hx
  cases hx
  rfl

/-- A change of the volume is refused as a whole. -/
theorem keeps_update (f : Volume → Except Fault Volume) (w : World) :
    KeepsOnFault (update f) w := by
  intro fault w' hx
  rw [outcome_update] at hx
  cases hv : f w.volume with
  | ok v => simp [hv] at hx
  | error fault =>
    rw [hv] at hx
    cases hx
    rfl

theorem keeps_bind {x : ExceptT Fault Run α} {f : α → ExceptT Fault Run β} {w : World}
    (hx : Looks x) (hf : ∀ a w', outcome x w = (.ok a, w') → KeepsOnFault (f a) w') :
    KeepsOnFault (x >>= f) w := by
  intro fault w₂ h
  have hw := hx w
  obtain ⟨fault', -, hfault⟩ | ⟨a, w₁, hdone, hrest⟩ := outcome_bind_cases h
  · rwa [hfault] at hw
  · rw [hdone] at hw
    exact (hf a w₁ hdone fault w₂ hrest).trans hw

theorem keeps_then {x : ExceptT Fault Run α} {w : World} (h : KeepsOnFault x w) :
    KeepsOnFault (x >>= fun _ => pure ()) w := by
  intro fault w₂ hx
  obtain ⟨fault', -, hfault⟩ | ⟨a, w₁, -, hrest⟩ := outcome_bind_cases hx
  · exact h fault' w₂ hfault
  · cases hrest

end Kinds

section Looking

theorem looks_exec (program : String) (args : List String) (tolerated : List Int) :
    Looks (Shell.exec program args tolerated) := by
  have hrun : Looks (liftM (Commands.run program args : Run (Except IoError CommandOutput))) :=
    fun w => rfl
  unfold Shell.exec Shell.invoke
  refine looks_bind (looks_bind hrun (fun result => ?_)) (fun output => ?_)
  · cases result with
    | error e => exact looks_throw _
    | ok output => exact looks_pure _
  · split_ifs
    · exact looks_pure _
    · exact looks_pure _
    · exact looks_throw _

/-- What a command tells is looked up, not changed. -/
theorem looks_told (program : String) (args : List String) (read : String → Option UInt32)
    (unread : String → Fault) :
    Looks (do
      let output ← Shell.exec program args []
      match read output with
      | some n => return n
      | none => throw (unread output) : ExceptT Fault Run UInt32) := by
  refine looks_bind (looks_exec _ _ _) fun output => ?_
  split
  · exact looks_pure _
  · exact looks_throw _

theorem looks_userId (user : String) : Looks (userId (m := Run) user) := by
  unfold userId Shell.userId
  split
  · exact looks_pure _
  · refine looks_bind ?_ fun n => looks_pure _
    split
    · exact looks_pure _
    · exact looks_told "id" ["-u", user] (fun output => Text.uint32? (Text.trim output)) _

theorem looks_groupId (group : String) : Looks (groupId (m := Run) group) := by
  unfold groupId Shell.groupId
  split
  · exact looks_pure _
  · refine looks_bind ?_ fun n => looks_pure _
    split
    · exact looks_pure _
    · exact looks_told "getent" ["group", group] Shell.groupNumber? _

theorem looks_resolve (c : Client Run) (p : Path) : Looks (c.resolve p) :=
  looks_of_except _

theorem looks_requireStat (k : Key) : Looks (Volume.requireStat (m := Run) k) := by
  intro w
  rw [outcome_requireStat]
  cases w.volume.stat? k <;> rfl

theorem looks_append (c : Client Run) (p : Path) : Looks (c.append p) := by
  unfold append
  refine looks_bind (looks_resolve c p) (fun q => ?_)
  refine looks_bind (fun w => rfl) (fun st? => ?_)
  refine looks_bind (looks_of_except _) (fun st => ?_)
  refine looks_bind (fun w => rfl) (fun writer => ?_)
  refine looks_bind (fun w => ?_) (fun result => looks_pure _)
  have hworld := acted_seek_world (.start st.length) writer w
  rw [outcome_orFault]
  cases hr : acted (VolumeAccess.seekWriter (.start st.length)) writer w with
  | mk result w' =>
    rw [hr] at hworld
    obtain ⟨_ | n, s⟩ := result <;> exact congrArg World.volume hworld

end Looking

section Changing

variable (c : Client Run) {w : World}

theorem setPermission_keeps (p : Path) (permission : Permission) :
    KeepsOnFault (c.setPermission p permission) w := by
  unfold setPermission
  refine keeps_bind (looks_resolve c p) (fun q w₁ _ => ?_)
  refine keeps_bind (looks_requireStat _) (fun st w₂ _ => ?_)
  exact keeps_update _ _

theorem setOwner_keeps (p : Path) (owner group : Option String) :
    KeepsOnFault (c.setOwner p owner group) w := by
  unfold setOwner
  split_ifs
  · exact (looks_throw _).keeps _
  · refine keeps_bind (looks_resolve c p) (fun q w₁ _ => ?_)
    refine keeps_bind (looks_requireStat _) (fun st w₂ _ => ?_)
    cases owner with
    | none =>
      refine keeps_bind (looks_pure _) (fun uid w₃ _ => ?_)
      cases group with
      | none => exact keeps_update _ _
      | some group => exact keeps_bind (looks_groupId group) (fun gid w₄ _ => keeps_update _ _)
    | some owner =>
      refine keeps_bind (looks_userId owner) (fun uid w₃ _ => ?_)
      cases group with
      | none => exact keeps_update _ _
      | some group => exact keeps_bind (looks_groupId group) (fun gid w₄ _ => keeps_update _ _)

variable {c} (hc : c.resolver.Sound) (hw : w.volume.WellFormed)

include hc in
theorem resolve_cases {p : Path} (hp : p.Normal) :
    (∃ reason, ∀ w, outcome (c.resolve p) w = (.error (.invalidPath reason), w)) ∨
    ∃ x, c.resolver.resolve p = .ok (.ofNames x) ∧ (∀ n ∈ x, IsName n) ∧
      ∀ w, outcome (c.resolve p) w = (.ok (.ofNames x), w) := by
  unfold resolve
  cases hq : c.resolver.resolve p with
  | error fault =>
    unfold Resolver.resolve at hq
    split_ifs at hq
    cases hq
    exact .inl ⟨_, fun w => rfl⟩
  | ok q =>
    obtain ⟨x, rfl, hx⟩ := Resolver.resolve_names hc hp hq
    exact .inr ⟨x, rfl, hx, fun w => rfl⟩

include hc hw

theorem mkdirs_keeps {p : Path} (hp : p.Normal) (permission : Option Permission) :
    KeepsOnFault (c.mkdirs p permission) w := by
  unfold mkdirs
  obtain ⟨fault, hfault⟩ | ⟨x, -, hx, hres⟩ := resolve_cases hc hp
  · exact keeps_of_error (outcome_bind_error (hfault w) _)
  refine keeps_bind (looks_resolve c p) (fun q w₁ hq => ?_)
  rw [hres] at hq
  cases hq
  obtain ⟨y, a, path, -, -, -, hfile⟩ | ⟨w₂, hmade, hw₂, hdirs⟩ :=
    tree_serves.mkdirs_outcome x hw hx
  · exact keeps_of_error (outcome_bind_error hfile _)
  · cases permission with
    | none => exact keeps_of_ok ((outcome_bind_ok hmade _).trans (outcome_pure _ _))
    | some permission =>
      obtain ⟨d, hd, -⟩ := hdirs.made x (List.prefix_refl x)
      have hchmod := chmod_found hd permission.mode
      rw [← Path.ofNames_key hx] at hchmod
      exact keeps_of_ok ((outcome_bind_ok hmade _).trans hchmod)

theorem delete_keeps {p : Path} (hp : p.Normal)
    (hroot : c.resolver.resolve p ≠ .ok .root) (recursive : Bool) :
    KeepsOnFault (c.delete p recursive) w ∧
      ∀ path failed undeleted cause w', outcome (c.delete p recursive) w ≠
        (.error (.partialDelete path failed undeleted cause), w') := by
  unfold delete
  obtain ⟨reason, hfault⟩ | ⟨x, hp', hx, hres⟩ := resolve_cases hc hp
  · have hend := outcome_bind_error (hfault w)
      (fun q => (tree : Tree Run).remove q recursive)
    exact ⟨keeps_of_error hend, fun path failed undeleted cause w' => by simp [hend]⟩
  have hx0 : x ≠ [] := by
    rintro rfl
    exact hroot hp'
  rw [KeepsOnFault]
  simp only [outcome_bind_ok (hres w)]
  obtain ⟨-, hend⟩ | ⟨d, -, -, -, -, hend⟩ | ⟨a, w₁, -, -, hend, -⟩ :=
    tree_serves.remove_outcome hw hx0 (tree_kind hx w) recursive
  · exact ⟨keeps_of_error hend, fun path failed undeleted cause w' => by simp [hend]⟩
  · exact ⟨keeps_of_error hend, fun path failed undeleted cause w' => by simp [hend]⟩
  · exact ⟨keeps_of_ok hend, fun path failed undeleted cause w' => by simp [hend]⟩

theorem create_keeps {p : Path} (hp : p.Normal) (options : CreateOptions) :
    KeepsOnFault (c.create p options) w := by
  obtain ⟨fault, hfault⟩ | ⟨x, hres, hx, -⟩ := resolve_cases hc hp
  · exact keeps_of_error (outcome_bind_error (hfault w) _)
  obtain ⟨fault, hend, -⟩ | ⟨w', e, hend, -⟩ := create_outcome hres hx hw options
  · exact keeps_of_error hend
  · exact keeps_of_ok hend

theorem rename_keeps {source destination : Path} (hs : source.Normal) (hd : destination.Normal) :
    KeepsOnFault (c.rename source destination) w ∨
      (outcome (c.rename source destination) w).1 = .error Tree.endless ∧
        EndlessRename c w source destination := by
  obtain ⟨reason, hfault⟩ | ⟨x, hp, hx, hsource⟩ := resolve_cases hc hs
  · exact .inl (keeps_of_error (outcome_bind_error (hfault w) _))
  obtain ⟨reason, hfault⟩ | ⟨y, hq, hy, -⟩ := resolve_cases hc hd
  · have hend : outcome (c.rename source destination) w = (.error (.invalidPath reason), w) := by
      unfold rename
      rw [outcome_bind_ok (hsource w)]
      exact outcome_bind_error (hfault w) _
    exact .inl (keeps_of_error hend)
  obtain ⟨fault, hfault⟩ | ⟨e, t, he, ht, hends⟩ := rename_cases hp hx hq hw hy
  · exact .inl (keeps_of_error hfault)
  obtain ⟨-, hdone⟩ | ⟨htx, t, n, rfl, hnames, hfree, hrename⟩ := hends
  · exact .inl (keeps_of_ok hdone)
  by_cases hparent : ∃ d, w.entries t = some d ∧ d.content = .directory
  · obtain ⟨d, hd, hdir⟩ := hparent
    have hn : IsName n := hnames n (by simp)
    by_cases hpre : x <+: t ++ [n]
    · have hbelow : x <+: t := (List.prefix_concat_iff.1 hpre).resolve_left (Ne.symm htx)
      have hendless := copy_below_endless c hw hn hbelow hfree hd hdir
      refine .inr ⟨?_, _, _, _, hp, hq, congrArg Prod.fst ht, hendless⟩
      rw [hrename]
      refine moveTo_below c hx hnames hpre htx ?_
      rw [copyTree_outcome]
      exact hendless _
    · refine .inl ?_
      cases hv : w.volume.refusesRenames with
      | false =>
        obtain ⟨w', hmoved, -⟩ := moveTo_natively (c := c) hw he hn hfree hd hdir hpre hv
        exact keeps_of_ok (hrename.trans hmoved)
      | true =>
        obtain ⟨-, -, w', -, -, -, -, -, hmoved, -⟩ :=
          moveTo_by_copy (c := c) hw he hn hfree hd hdir hpre hv
        exact keeps_of_ok (hrename.trans hmoved)
  · have horphan : ∀ d, w.entries t = some d → d.content ≠ .directory :=
      fun d hd hdir => hparent ⟨d, hd, hdir⟩
    obtain ⟨fault, hfault, -⟩ := moveTo_orphan (x := x) c hnames horphan
    exact .inl (keeps_of_error (hrename.trans hfault))

end Changing

inductive Change where
  | mkdirs (p : Path) (permission : Option Permission)
  | create (p : Path) (options : CreateOptions)
  | append (p : Path)
  | rename (source destination : Path)
  | delete (p : Path) (recursive : Bool)
  | setOwner (p : Path) (owner group : Option String)
  | setPermission (p : Path) (permission : Permission)

namespace Change

def run (c : Client Run) : Change → ExceptT Fault Run Unit
  | .mkdirs p permission => c.mkdirs p permission
  | .create p options => c.create p options >>= fun _ => return
  | .append p => c.append p >>= fun _ => return
  | .rename source destination => c.rename source destination
  | .delete p recursive => c.delete p recursive
  | .setOwner p owner group => c.setOwner p owner group
  | .setPermission p permission => c.setPermission p permission

def Normal : Change → Prop
  | .mkdirs p _ | .create p _ | .append p | .delete p _ | .setOwner p _ _ | .setPermission p _ =>
    p.Normal
  | .rename source destination => source.Normal ∧ destination.Normal

def SparesRoot (c : Client Run) : Change → Prop
  | .delete p _ => c.resolver.resolve p ≠ .ok .root
  | _ => True

end Change

/-- A call that ends in a fault has not changed the volume, and a delete has not stopped halfway.
A rename of a directory into itself does not end at all. -/
theorem failed_change_keeps {c : Client Run} (hc : c.resolver.Reached) {w w' : World}
    (hw : w.volume.Reachable) {change : Change} (hn : change.Normal) (hroot : change.SparesRoot c)
    {fault : Fault} (h : outcome (change.run c) w = (.error fault, w')) :
    (w'.volume = w.volume ∧ ∀ p recursive, change = .delete p recursive →
      ∀ path failed undeleted cause, fault ≠ .partialDelete path failed undeleted cause) ∨
    (fault = Tree.endless ∧ ∃ source destination, change = .rename source destination ∧
      EndlessRename c w source destination) := by
  have hc := hc.sound
  have hw := hw.wellFormed
  cases change with
  | mkdirs p permission =>
    exact .inl ⟨mkdirs_keeps hc hw hn permission fault w' h, fun _ _ hd => by cases hd⟩
  | create p options =>
    exact .inl ⟨keeps_then (create_keeps hc hw hn options) fault w' h, fun _ _ hd => by cases hd⟩
  | append p =>
    exact .inl ⟨keeps_then ((looks_append c p).keeps w) fault w' h, fun _ _ hd => by cases hd⟩
  | rename source destination =>
    obtain hkeeps | ⟨hend, hendless⟩ := rename_keeps hc hw hn.1 hn.2
    · exact .inl ⟨hkeeps fault w' h, fun _ _ hd => by cases hd⟩
    · refine .inr ⟨?_, source, destination, rfl, hendless⟩
      have hfault : (Except.error fault : Except Fault Unit) = .error Tree.endless :=
        (congrArg Prod.fst h).symm.trans hend
      cases hfault
      rfl
  | delete p recursive =>
    obtain ⟨hkeeps, hwhole⟩ := delete_keeps hc hw hn hroot recursive
    refine .inl ⟨hkeeps fault w' h, ?_⟩
    rintro _ _ ⟨⟩ path failed undeleted cause rfl
    exact hwhole path failed undeleted cause w' h
  | setOwner p owner group =>
    exact .inl ⟨setOwner_keeps c p owner group fault w' h, fun _ _ hd => by cases hd⟩
  | setPermission p permission =>
    exact .inl ⟨setPermission_keeps c p permission fault w' h, fun _ _ hd => by cases hd⟩

theorem refused_create_keeps : ∃ fault w',
    outcome ((Change.create (.ofNames ["a", "f"]) ⟨false, none, none⟩).run visitor) shelf =
      (.error fault, w') ∧ w'.volume = shelf.volume := by
  have hnormal : (Change.create (.ofNames ["a", "f"]) ⟨false, none, none⟩).Normal :=
    Path.leads_names.2 (by decide)
  have hend : outcome ((Change.create (.ofNames ["a", "f"]) ⟨false, none, none⟩).run visitor) shelf =
      (.error (.alreadyExists (Path.ofNames ["a", "f"]).text), shelf) := rfl
  obtain ⟨hkept, -⟩ | ⟨hendless, -⟩ :=
    failed_change_keeps visitor_reached shelf_reachable hnormal trivial hend
  · exact ⟨_, shelf, hend, hkept⟩
  · cases hendless

end Client

end VolumeFS
