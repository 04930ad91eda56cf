import VolumeFS.Proofs.Disk.Vacant
import VolumeFS.Proofs.Mount.Linked
import VolumeFS.Proofs.Parallel.Mkdirs
import VolumeFS.Proofs.Parallel.Streams

/-!
# A session that creates a file on a mount, among others

Step by step: a session looks whether the path is free, makes the directories
above it, opens the file, which creates it or empties it, writes and closes. All
that any number of such sessions do to the disk is to make what is missing at and
above the place and to write to the file there, so that whatever a session found
there it finds again. Its own bytes it finds again only if nobody else came past
the look: this is what the parties of an overlap have to keep, and each step of a
session keeps it.
-/

set_option autoImplicit false

namespace VolumeFS

open Disk

namespace Mount

section Program

variable {m : Type → Type} [Monad m] [DiskAccess m] [Clock m] [MonadStateOf Statistics m]

def makeNew (t : Mount m) (q : Path) (options : CreateOptions) :
    ExceptT Fault m (OutputStream (WriteBuffer Disk.Writer)) := do
  t.tree.ensureParent q
  let file := t.localPath q
  let writer ← naming q.text (DiskAccess.openWriter file)
  match options.permission with
  | some permission => naming q.text (DiskAccess.setMode file permission.mode)
  | none => pure ()
  let capacity := options.bufferSize.getD t.config.tunedBufferSize
  return .start (.ofCapacity capacity writer) (t.qualify q)

def fill (chunks : List (List Byte)) (stream : OutputStream (WriteBuffer Disk.Writer)) :
    ExceptT Fault m Unit := do
  let (_, stream) ← Stream.orFault (OutputStream.writeEach chunks) stream
  let _ ← Stream.orFault OutputStream.close stream

def session (t : Mount m) (p : Path) (options : CreateOptions) (chunks : List (List Byte)) :
    ExceptT Fault m Unit := do
  fill chunks (← t.create p options)

end Program

variable (t : Mount (Steps World))

theorem kind_look (p : Path) :
    (t.kind p).run = .step id fun w => .done (seen (t.localPath p) w.disk) := by
  unfold seen
  refine congrArg (Steps.step id) (funext fun w => ?_)
  change Steps.bind (.done (w.disk.metadata (t.localPath p))) _ = _
  cases w.disk.metadata (t.localPath p) with
  | ok found => rfl
  | error e => rfl

def afterLook (q : Path) (options : CreateOptions) (chunks : List (List Byte)) :
    Except Fault (Option EntryKind) → Steps World (Except Fault Unit)
  | .ok none => (t.makeNew q options >>= fill chunks).run
  | .ok (some .file) => .done (.error (.alreadyExists q.text))
  | .ok (some .directory) => .done (.error (.isADirectory q.text))
  | .error fault => .done (.error fault)

theorem session_look {p q : Path} {options : CreateOptions} (hphase : t.phase = .mounted)
    (hq : t.logical p = .ok q) (hnew : options.overwrite = false) (chunks : List (List Byte)) :
    (t.session p options chunks).run =
      .step id fun w => t.afterLook q options chunks (seen (t.localPath q) w.disk) := by
  have hkind : t.kind q = ExceptT.mk (.step id fun w => .done (seen (t.localPath q) w.disk)) :=
    t.kind_look q
  unfold session create enter requireMounted checkFree
  rw [if_pos hphase, hq, hnew]
  change ((t.kind q >>= _) >>= _ >>= _).run = _
  rw [hkind]
  refine congrArg (Steps.step id) (funext fun w => ?_)
  change Steps.bind (Steps.bind (Steps.bind (.done (seen (t.localPath q) w.disk)) _) _) _ = _
  cases seen (t.localPath q) w.disk with
  | error fault => rfl
  | ok found =>
    cases found with
    | none => rfl
    | some kind => cases kind <;> rfl

end Mount

/-- A world in which parties create a file at one place of what was the disk `d₀`, and who of them
found the place free. -/
structure Overlap (ι : Type) (d₀ : Disk) (base : Place) (y : List String) (n : String) where
  world : World
  passed : ι → Prop
  grown : Grown d₀ base y n world.disk
  untouched : (∀ i, ¬ passed i) → world.disk = d₀

namespace Overlap

variable {ι : Type} {d₀ : Disk} {base : Place} {y : List String} {n : String}
  {t t' t'' : Overlap ι d₀ base y n} {i : ι}

/-- What is there stays there, and who found the place free has found it so. -/
structure Later (t t' : Overlap ι d₀ base y n) : Prop where
  kept : Kept t.world.disk t'.world.disk
  passed : ∀ i, t.passed i → t'.passed i

theorem Later.refl (t : Overlap ι d₀ base y n) : Later t t := ⟨.refl _, fun _ h => h⟩

theorem Later.trans (h : Later t t') (h' : Later t' t'') : Later t t'' :=
  ⟨h.kept.trans h'.kept, fun i hi => h'.passed i (h.passed i hi)⟩

def overlap (ι : Type) (d₀ : Disk) (base : Place) (y : List String) (n : String) :
    Protocol ι World (Overlap ι d₀ base y n) where
  view := world
  does i t t' := Later t t' ∧ (∀ j, j ≠ i → t'.passed j → t.passed j) ∧
    (¬ t.passed i → t'.world = t.world)
  sees i t t' := Later t t' ∧ (t'.passed i → t.passed i) ∧
    ((∀ j, j ≠ i → ¬ t'.passed j) → t'.world = t.world)
  sees_refl _ t := ⟨.refl t, id, fun _ => rfl⟩
  sees_trans h h' := by
    refine ⟨h.1.trans h'.1, fun hi => h.2.1 (h'.2.1 hi), fun halone => ?_⟩
    rw [h'.2.2 halone, h.2.2 fun j hj hpassed => halone j hj (h'.1.passed j hpassed)]
  noticed hne h := by
    refine ⟨h.1, h.2.1 _ hne.symm, fun halone => h.2.2 fun hi => ?_⟩
    exact halone _ hne (h.1.passed _ hi)

theorem quiet (t : Overlap ι d₀ base y n) : (overlap ι d₀ base y n).does i t t :=
  ⟨.refl t, fun _ _ h => h, fun _ => rfl⟩

def Alone (i : ι) (t : Overlap ι d₀ base y n) : Prop := ∀ j, j ≠ i → ¬ t.passed j

theorem alone_earlier (h : Later t t') (halone : Alone i t') : Alone i t :=
  fun j hj hpassed => halone j hj (h.passed j hpassed)

def pass (t : Overlap ι d₀ base y n) (i : ι) : Overlap ι d₀ base y n where
  world := t.world
  passed j := j = i ∨ t.passed j
  grown := t.grown
  untouched h := absurd (.inl rfl) (h i)

theorem pass_does : (overlap ι d₀ base y n).does i t (t.pass i) :=
  ⟨⟨.refl _, fun _ h => .inr h⟩, fun _ hj h => h.resolve_left hj, fun _ => rfl⟩

def next (t : Overlap ι d₀ base y n) (hi : t.passed i) (w : World)
    (hw : Grown d₀ base y n w.disk) : Overlap ι d₀ base y n where
  world := w
  passed := t.passed
  grown := hw
  untouched h := absurd hi (h i)

theorem next_does {hi : t.passed i} {w : World} {hw : Grown d₀ base y n w.disk}
    (hkept : Kept t.world.disk w.disk) : (overlap ι d₀ base y n).does i t (t.next hi w hw) :=
  ⟨⟨hkept, fun _ h => h⟩, fun _ _ h => h, fun h => absurd hi h⟩

def File (t : Overlap ι d₀ base y n) (number : Nat) : Prop :=
  t.world.disk.node? (base ++ (y ++ [n])) = some (.file number)

theorem File.later {number : Nat} (h : File t number) (hlater : Later t t') : File t' number :=
  hlater.kept.nodes _ _ h

theorem File.new {number : Nat} (h : File t number) :
    d₀.bodies.length ≤ number ∧ number < t.world.disk.bodies.length := by
  obtain ⟨k, hk, hle, hlt⟩ := t.grown.place _ h
  cases hk
  exact ⟨hle, hlt⟩

/-- The party found the place free, and the file has these bytes unless others write there too. -/
def Filled (i : ι) (t : Overlap ι d₀ base y n) (data : List Byte) : Prop :=
  t.passed i ∧ ∃ number, File t number ∧ (Alone i t → (t.world.disk.body number).data = data)

/-- The party writes to the file, at its end unless others write there too. -/
def Filling (i : ι) (s : Disk.Writer) (t : Overlap ι d₀ base y n) (data : List Byte) : Prop :=
  t.passed i ∧ ∃ number, s.handle.number? = some number ∧ File t number ∧
    (Alone i t → s.handle.position.toNat = data.length ∧
      (t.world.disk.body number).data = data)

theorem Filling.later {s : Disk.Writer} {data : List Byte} (h : Filling i s t data)
    (hsees : (overlap ι d₀ base y n).sees i t t') : Filling i s t' data := by
  obtain ⟨hi, number, hs, hfile, hdata⟩ := h
  refine ⟨hsees.1.passed i hi, number, hs, hfile.later hsees.1, fun halone => ?_⟩
  rw [hsees.2.2 halone]
  exact hdata (alone_earlier hsees.1 halone)

/-- Writing goes on at the end of the file, as long as nobody else writes there. -/
theorem takes : (overlap ι d₀ base y n).Takes i Volume.longest (Filling i) (Filled i) where
  write := by
    rintro ⟨⟨number?, position⟩⟩ t data bytes hlen ⟨hi, number, hs, hfile, hdata⟩
    obtain rfl : number? = some number := hs
    obtain ⟨hnew, hlt⟩ := hfile.new
    have hpiece : bytes.take (bytes.take transferLimit).length = bytes.take transferLimit := by
      rw [List.length_take, ← List.take_take, List.take_length]
    have htaken : (bytes.take transferLimit).length ≤ bytes.length := List.length_take_le' _ _
    have hgrown := t.grown.modified hnew (fun b =>
      { b with data := overwrite b.data position.toNat (bytes.take transferLimit) }) rfl
    refine ⟨t.next hi { t.world with disk := _ } hgrown.2, rfl, next_does hgrown.1,
      fun t'' hsees => ⟨(bytes.take transferLimit).length, rfl, htaken, fun hnone => ?_, ?_⟩⟩
    · have hlimit : 0 < transferLimit := by decide
      rw [List.length_take] at hnone
      exact List.length_eq_zero_iff.1 (by omega)
    · refine Filling.later (t := t.next hi { t.world with disk := _ } hgrown.2)
        ⟨hi, number, rfl, hfile, fun halone => ?_⟩ hsees
      obtain ⟨hposition, hbody⟩ := hdata halone
      rw [hpiece]
      refine ⟨?_, ?_⟩
      · dsimp only at hposition ⊢
        rw [Volume.toNat_length (by omega), List.length_append, hposition]
      · dsimp only [next] at hposition ⊢
        rw [body_modify_self hlt]
        dsimp only
        rw [hbody, hposition, overwrite_end]
  shutdown := by
    rintro s t data - ⟨hi, number, -, hfile, hdata⟩
    exact Protocol.acts_pure ⟨hi, number, hfile, fun halone => (hdata halone).2⟩

end Overlap

namespace Mount

/-- The path of `x` leads to the directory at `base`, by whatever links, and from there the names
lead on to a place where nothing is. -/
structure FreePlace (t : Mount (Steps World)) (d : Disk) (x : List String) (base : Place)
    (y : List String) (n : String) : Prop where
  named : t.directory ≠ ""
  fits : t.Fits (x ++ (y ++ [n]))
  found : ∃ mode, d.find (t.localPath (.ofNames x)) = .ok (base, .directory mode)
  vacant : d.Vacant base (y ++ [n])

/-- The party found the place free, and the directories down to `z` are there. -/
structure There {ι : Type} {d₀ : Disk} {base : Place} {y : List String} {n : String} (i : ι)
    (x z : List String) (s : Overlap ι d₀ base y n) : Prop where
  passed : s.passed i
  directories : ∀ u v, z = x ++ u → v <+: u →
    ∃ mode, s.world.disk.node? (base ++ v) = some (.directory mode)

section Steps

open Overlap

variable {ι : Type} {i : ι} {t : Mount (Steps World)} {d₀ : Disk} {x y : List String}
  {base : Place} {n : String} {s s' : Overlap ι d₀ base y n}

theorem There.later {z : List String} (h : There i x z s) (hlater : Later s s') :
    There i x z s' where
  passed := hlater.passed i h.passed
  directories := by
    intro u v hz hv
    obtain ⟨mode, hdir⟩ := h.directories u v hz hv
    exact ⟨mode, hlater.kept.nodes _ _ hdir⟩

theorem There.child {z : List String} {m : String} (h : There i x (x ++ z) s)
    (hm : ∃ mode, s.world.disk.node? (base ++ (z ++ [m])) = some (.directory mode)) :
    There i x (x ++ (z ++ [m])) s where
  passed := h.passed
  directories := by
    intro u v hu hv
    rw [← List.append_cancel_left hu] at hv
    rcases List.prefix_concat_iff.1 hv with rfl | hv
    · exact hm
    · exact h.directories z v rfl hv

/-- What is next on the way lies above the directory or below it. -/
theorem way_cases {x y z : List String} {m : String} (hz : z ++ [m] <+: x ++ y) :
    z ++ [m] <+: x ∨ ∃ w, z = x ++ w ∧ w ++ [m] <+: y := by
  rcases List.prefix_or_prefix_of_prefix hz (List.prefix_append x y) with hx | hx
  · exact .inl hx
  · rcases List.prefix_concat_iff.1 hx with rfl | ⟨w, rfl⟩
    · exact .inl (List.prefix_refl _)
    · rw [List.append_assoc] at hz
      exact .inr ⟨w, rfl, (List.prefix_append_right_inj x).1 hz⟩

theorem kind_keeps {τ : Type} {P : Protocol ι World τ}
    {Q : Except Fault (Option EntryKind) → τ → Prop} {p : Path} {r r' : τ}
    (hview : P.view r' = P.view r) (hdoes : P.does i r r')
    (h : ∀ r'', P.sees i r' r'' → Q (seen (t.localPath p) (P.view r).disk) r'') :
    P.Keeps i Q (t.kind p).run r := by
  rw [kind_look]
  exact ⟨r', hview, hdoes, h⟩

variable (hfree : t.FreePlace d₀ x base y n)

include hfree

theorem FreePlace.onward {z v : List String} (hz : z ++ v = y ++ [n]) {d : Disk}
    (hd : Kept d₀ d) : d.Onward (t.localPath (.ofNames (x ++ z))) base z := by
  obtain ⟨mode, hfound⟩ := hfree.found
  have hfits : t.Fits (x ++ z) := by
    refine fits_upper hfree.named (z := v) ?_
    rw [List.append_assoc, hz]
    exact hfree.fits
  exact (onward_below hfree.named (find_onward hfound) hfits).kept hd

theorem FreePlace.name {m : String} (hm : m ∈ y ++ [n]) : EntryName m :=
  hfree.fits.names m (List.mem_append_right _ hm)

/-- The directories that are there are seen. -/
theorem seen_there {z : List String} (hz : z <+: x ++ y) (h : There i x z s) :
    seen (t.localPath (.ofNames z)) s.world.disk = .ok (some .directory) := by
  rcases List.prefix_or_prefix_of_prefix hz (List.prefix_append x y) with ⟨v, rfl⟩ | ⟨u, rfl⟩
  · obtain ⟨mode, hfound⟩ := hfree.found
    have hv : ∀ m ∈ v, IsName m := fun m hm => (hfree.fits.names m (by simp [hm])).name
    obtain ⟨base', hbase, -⟩ := onward_above hfree.named hv
      ((find_onward hfound).kept s.grown.kept)
    exact seen_directory hbase
  · obtain ⟨v, hv⟩ := (List.prefix_append_right_inj x).1 hz
    have hgo := hfree.onward (z := u) (v := v ++ [n]) (by rw [← List.append_assoc, hv])
      s.grown.kept
    rw [← List.append_nil u] at hgo
    have hu : ∀ m ∈ u, EntryName m := by
      intro m hm
      refine hfree.name (List.mem_append_left _ ?_)
      rw [← hv]
      exact List.mem_append_left _ hm
    rw [← List.append_nil u]
    exact seen_directory (hgo.along hu fun w hw => h.directories u w rfl hw)

section Next

variable {z : List String} {m : String} (hz : z ++ [m] <+: y) (h : There i x (x ++ z) s)

include hz h

/-- The last directory that is there is where the path of the next one ends. -/
theorem onward_next :
    s.world.disk.Onward (t.localPath (.ofNames (x ++ (z ++ [m])))) (base ++ z) [m] ∧
      EntryName m := by
  obtain ⟨v, hv⟩ := hz
  have hgo := hfree.onward (z := z ++ [m]) (v := v ++ [n]) (by rw [← List.append_assoc, hv])
    s.grown.kept
  have hnames : ∀ k ∈ z ++ [m], EntryName k := by
    intro k hk
    refine hfree.name (List.mem_append_left _ ?_)
    rw [← hv]
    exact List.mem_append_left _ hk
  exact ⟨Disk.Grown.onward hgo hnames fun w hw => h.directories z w rfl hw, hnames m (by simp)⟩

theorem make_keeps : (overlap ι d₀ base y n).Keeps i (fun _ s' => There i x (x ++ (z ++ [m])) s')
    (t.tree.makeDirectory (.ofNames (x ++ (z ++ [m])))).run s := by
  obtain ⟨hgo, hm⟩ := onward_next hfree hz h
  have hmake : Steps.Single (t.tree.makeDirectory (.ofNames (x ++ (z ++ [m]))))
      (naming (t.localPath (.ofNames (x ++ (z ++ [m])))) (Disk.update (Disk.createDirectory
        (t.localPath (.ofNames (x ++ (z ++ [m]))))))) := rfl
  cases ha : s.world.disk.node? (base ++ (z ++ [m])) with
  | none =>
    obtain ⟨mode', hdir⟩ := h.directories z z rfl (List.prefix_refl z)
    obtain ⟨mode, hcreate⟩ := createDirectory_free (hgo.parent hm) hm (by rwa [List.append_assoc])
    rw [List.append_assoc] at hcreate
    obtain ⟨hkept, hgrown⟩ := s.grown.directory hz hdir ha mode rfl
    refine Protocol.keeps_single hmake (u := s.next h.passed { s.world with disk := _ } hgrown)
      (outcome_update_ok hcreate) (next_does hkept) fun s' hsees => ?_
    have hlater : There i x (x ++ z) (s.next h.passed { s.world with disk := _ } hgrown) :=
      h.later ⟨hkept, fun _ hj => hj⟩
    refine (hlater.child ⟨mode, ?_⟩).later hsees.1
    exact (congrFun (layout_set rfl) _).trans (Function.update_self _ _ _)
  | some a =>
    have hdir := s.grown.way _ a (by simp) hz ha
    obtain ⟨mode, rfl⟩ := isDirectory_iff.1 hdir
    have htaken := hgo.createDirectory_taken hm (by rwa [List.append_assoc])
    exact Protocol.keeps_single hmake (outcome_update_error htaken) (quiet s)
      fun s' hsees => (h.child ⟨_, ha⟩).later hsees.1

end Next

theorem paves : (overlap ι d₀ base y n).Paves i t.tree (There i x) (x ++ y) where
  look := by
    intro z m s hz h
    refine kind_keeps rfl (quiet s) fun s' hsees => ?_
    -- The directories down to `x` are there anyway, those below it may be made.
    rcases way_cases hz with hx | ⟨w, rfl, hw⟩
    · obtain ⟨mode, hbase⟩ := (hfree.onward (z := []) rfl s.grown.kept).base_directory
      have hnext : There i x (z ++ [m]) s := by
        refine ⟨h.passed, fun u v hu hv => ⟨mode, ?_⟩⟩
        have hlength := hx.length_le
        rw [hu, List.length_append] at hlength
        obtain rfl := List.length_eq_zero_iff.1 (by omega : u.length = 0)
        obtain rfl := List.prefix_nil.1 hv
        rwa [List.append_nil]
      exact .inr ⟨seen_there hfree hz hnext, hnext.later hsees.1⟩
    · rw [List.append_assoc] at hz ⊢
      cases ha : s.world.disk.node? (base ++ (w ++ [m])) with
      | none =>
        obtain ⟨hgo, hm⟩ := onward_next hfree hw h
        refine .inl ⟨seen_absent ?_, make_keeps hfree hw (h.later hsees.1)⟩
        refine hgo.find_absent (by simp) (by simpa using hm) fun u v huv hu a ha' => ?_
        obtain ⟨rfl, rfl⟩ : u = [m] ∧ v = [] := by
          rcases List.append_eq_singleton_iff.1 huv.symm with ⟨rfl, -⟩ | hu'
          · exact absurd rfl hu
          · exact hu'
        rw [List.append_assoc] at ha'
        cases ha.symm.trans ha'
      | some a =>
        obtain ⟨mode, rfl⟩ := isDirectory_iff.1 (s.grown.way _ a (by simp) hw ha)
        have hnext := h.child ⟨_, ha⟩
        exact .inr ⟨seen_there hfree hz hnext, hnext.later hsees.1⟩
  again := by
    intro z m s hz h
    refine kind_keeps rfl (quiet s) fun s' hsees => ⟨?_, h.later hsees.1⟩
    exact seen_there hfree hz h

section Place

variable (h : There i x (x ++ y) s)

include h

/-- Once all directories are there, the path of the file ends in the last of them. -/
theorem onward_place {d : Disk} (hd : Kept s.world.disk d) :
    d.Onward (t.localPath (.ofNames (x ++ y ++ [n]))) (base ++ y) [n] := by
  have hgo := hfree.onward (z := y ++ [n]) (v := []) (by simp) (s.grown.kept.trans hd)
  rw [← List.append_assoc] at hgo
  refine Disk.Grown.onward hgo (fun m hm => hfree.name hm) fun z hz => ?_
  obtain ⟨mode, hdir⟩ := h.directories y z rfl hz
  exact ⟨mode, hd.nodes _ _ hdir⟩

/-- Whether the file is new or not, it is empty once it is open. -/
theorem openWriter_keeps (text : String) : (overlap ι d₀ base y n).Gives i
    (fun writer s' => There i x (x ++ y) s' ∧ Filling i writer s' [])
    (naming text (DiskAccess.openWriter (t.localPath (.ofNames (x ++ y ++ [n]))))) s := by
  have hgo := onward_place hfree h (.refl _)
  have hn := hfree.name (m := n) (by simp)
  have hopen : Steps.Single
      (naming text (DiskAccess.openWriter (t.localPath (.ofNames (x ++ y ++ [n])))))
      (naming text (Disk.act fun d => (Disk.openWriter (t.localPath (.ofNames (x ++ y ++ [n]))) d).map
        fun opened => (Disk.Writer.mk opened.1, opened.2))) := rfl
  obtain ⟨number, d, hopened, ⟨hkept, hgrown⟩, hfile, hempty⟩ := s.grown.opened hgo hn
  have hend : outcome (naming text (Disk.act fun d =>
      (Disk.openWriter (t.localPath (.ofNames (x ++ y ++ [n]))) d).map
        fun opened => (Disk.Writer.mk opened.1, opened.2))) s.world =
      (.ok ⟨⟨some number, 0⟩⟩, { s.world with disk := d }) := by
    rw [outcome_act, hopened]
    rfl
  refine Protocol.keeps_single hopen (u := s.next h.passed { s.world with disk := d } hgrown) hend
    (next_does hkept) fun s' hsees => ⟨_, rfl, ?_, ?_⟩
  · have hthere : There i x (x ++ y) (s.next h.passed { s.world with disk := d } hgrown) :=
      h.later ⟨hkept, fun _ hj => hj⟩
    exact hthere.later hsees.1
  · exact Filling.later (t := s.next h.passed { s.world with disk := d } hgrown)
      ⟨h.passed, number, rfl, hfile, fun _ => ⟨rfl, hempty⟩⟩ hsees

/-- Another mode changes no bytes. -/
theorem setMode_keeps (text : String) (mode : UInt32) {writer : Disk.Writer}
    (hw : Filling i writer s []) : (overlap ι d₀ base y n).Gives i
    (fun _ s' => Filling i writer s' [])
    (naming text (DiskAccess.setMode (t.localPath (.ofNames (x ++ y ++ [n]))) mode)) s := by
  have hgo := onward_place hfree h (.refl _)
  have hn := hfree.name (m := n) (by simp)
  obtain ⟨hi, number, hnumber, hfile, hdata⟩ := hw
  obtain ⟨hle, hlt⟩ := hfile.new
  have hset : Steps.Single
      (naming text (DiskAccess.setMode (t.localPath (.ofNames (x ++ y ++ [n]))) mode))
      (naming text (Disk.update (Disk.setMode (t.localPath (.ofNames (x ++ y ++ [n]))) mode))) := rfl
  have hend := hgo.setMode_file hn (by rw [List.append_assoc]; exact hfile) mode
  obtain ⟨hkept, hgrown⟩ := s.grown.modified hle
    (fun b => { b with mode := permissionBits mode }) rfl
  refine Protocol.keeps_single hset (u := s.next h.passed { s.world with disk := _ } hgrown)
    (outcome_update_ok hend) (next_does hkept) fun s' hsees => ⟨(), rfl, ?_⟩
  refine Filling.later (t := s.next h.passed { s.world with disk := _ } hgrown)
    ⟨hi, number, hnumber, hfile, fun halone => ?_⟩ hsees
  dsimp only [next]
  rw [body_modify_self hlt]
  exact hdata halone

end Place

/-- Who found the place free gets a stream to an empty file. -/
theorem makeNew_keeps (options : CreateOptions) (hi : s.passed i) :
    (overlap ι d₀ base y n).Gives i
      (fun stream s' => WriteBuffer.Holding (Filling i) stream.writer.inner s' [])
      (t.makeNew (.ofNames (x ++ y ++ [n])) options) s := by
  have hthere : There i x [] s := by
    refine ⟨hi, fun u v hu hv => ?_⟩
    obtain ⟨mode, hbase⟩ := (hfree.onward (z := []) rfl s.grown.kept).base_directory
    obtain ⟨-, rfl⟩ := List.append_eq_nil_iff.1 hu.symm
    obtain rfl := List.prefix_nil.1 hv
    exact ⟨mode, by rwa [List.append_nil]⟩
  unfold makeNew
  refine ((paves hfree).ensureParent n hthere).next fun _ s₁ h₁ => ?_
  refine (openWriter_keeps hfree h₁ _).next fun writer s₂ h₂ => ?_
  cases options.permission with
  | none => exact ⟨_, rfl, WriteBuffer.holding_fresh h₂.2 _⟩
  | some permission =>
    refine (setMode_keeps hfree h₂.1 _ _ h₂.2).next fun _ s₃ h₃ => ?_
    exact ⟨_, rfl, WriteBuffer.holding_fresh h₃ _⟩

omit hfree in
/-- What is written and closed is in the file, unless others write there too. -/
theorem fill_keeps {stream : OutputStream (WriteBuffer Disk.Writer)} {chunks : List (List Byte)}
    (hstream : WriteBuffer.Holding (Filling i) stream.writer.inner s [])
    (hroom : chunks.flatten.length ≤ Volume.longest) :
    (overlap ι d₀ base y n).Gives i (fun _ s' => Filled i s' chunks.flatten)
      (fill chunks stream) s := by
  have htakes : (overlap ι d₀ base y n).Takes i Volume.longest (Filling i) (Filled i) := takes
  have hcounted := Counted.takes (WriteBuffer.takes htakes) fun {total b s data} hb => by
      obtain ⟨passed, hdata, hwriter⟩ := hb
      exact Protocol.keeps_access (u := s.next hwriter.1
        { s.world with statistics := total s.world.statistics } s.grown) rfl
        (next_does (.refl _)) fun s' hsees => ⟨passed, hdata, Filling.later (t := s.next hwriter.1
          { s.world with statistics := total s.world.statistics } s.grown) hwriter hsees⟩
  unfold fill
  refine (Protocol.gives_orFault (OutputStream.writeEach_beside hcounted chunks hstream
    (by simpa using hroom))).next fun done s₁ h₁ => ?_
  refine (Protocol.gives_orFault (OutputStream.close_beside hcounted h₁
    (by simpa using hroom))).next fun done s₂ h₂ => ?_
  exact ⟨(), rfl, by simpa using h₂⟩

theorem place_file {number : Nat} (hfile : File s number) :
    s.world.disk.find (t.localPath (.ofNames (x ++ y ++ [n]))) =
      .ok (base ++ (y ++ [n]), .file number) := by
  have hgo := hfree.onward (z := y ++ [n]) (v := []) (by simp) s.grown.kept
  rw [← List.append_assoc] at hgo
  have hlast := Disk.Grown.onward hgo (fun m hm => hfree.name hm) fun z hz => by
    obtain ⟨v, rfl⟩ := hz
    rw [File, List.append_assoc] at hfile
    exact s.grown.directory_above (z := z) (v := v ++ [n]) (by simp)
      (by rw [List.append_assoc]) hfile
  have hfind := hlast.find_file (hfree.name (by simp)) (by rw [List.append_assoc]; exact hfile)
  rw [List.append_assoc base] at hfind
  exact hfind

/-- At the place there is nothing or the file. -/
theorem place_cases (s : Overlap ι d₀ base y n) :
    s.world.disk.find (t.localPath (.ofNames (x ++ y ++ [n]))) = .error noEntry ∨
    ∃ number, File s number := by
  have hgo := hfree.onward (z := y ++ [n]) (v := []) (by simp) s.grown.kept
  rw [← List.append_assoc] at hgo
  cases ha : s.world.disk.node? (base ++ (y ++ [n])) with
  | none => exact .inl (Disk.Grown.find_free hgo (fun m hm => hfree.name hm) s.grown ha)
  | some a =>
    obtain ⟨number, rfl, -, -⟩ := s.grown.place a ha
    exact .inr ⟨number, ha⟩

/-- A session has filled the file, or it found it there and did nothing. -/
def Done (i : ι) (q : Path) (chunks : List (List Byte)) (result : Except Fault Unit)
    (s : Overlap ι d₀ base y n) : Prop :=
  (result = .ok () ∧ Filled i s chunks.flatten) ∨
  (result = .error (.alreadyExists q.text) ∧ ¬ s.passed i ∧ ∃ number, File s number)

section Done

variable {q : Path} {chunks : List (List Byte)} {result : Except Fault Unit}
  (h : Done i q chunks result s)

omit hfree

include h

theorem Done.told : result = .ok () ∨ result = .error (.alreadyExists q.text) := by
  rcases h with ⟨hok, -⟩ | ⟨herror, -⟩
  · exact .inl hok
  · exact .inr herror

/-- Who found the place free got a stream, and nobody else. -/
theorem Done.ok_iff : result = .ok () ↔ s.passed i := by
  rcases h with ⟨rfl, hi, -⟩ | ⟨rfl, hi, -⟩
  · exact iff_of_true rfl hi
  · exact iff_of_false (fun hok => nomatch hok) hi

theorem Done.file : ∃ number, File s number := by
  rcases h with ⟨-, -, number, hfile, -⟩ | ⟨-, -, hfile⟩
  · exact ⟨number, hfile⟩
  · exact hfile

theorem Done.data (hi : s.passed i) (halone : Alone i s) {number : Nat} (hfile : File s number) :
    (s.world.disk.body number).data = chunks.flatten := by
  rcases h with ⟨-, -, number', hfile', hdata⟩ | ⟨-, hnot, -⟩
  · cases hfile.symm.trans hfile'
    exact hdata halone
  · exact absurd hi hnot

end Done

variable {p : Path} (hphase : t.phase = .mounted)
  (hq : t.logical p = .ok (.ofNames (x ++ y ++ [n]))) {options : CreateOptions}
  (hnew : options.overwrite = false)

include hphase hq hnew

theorem session_keeps {chunks : List (List Byte)} (hroom : chunks.flatten.length ≤ Volume.longest)
    (hi : ¬ s.passed i) : (overlap ι d₀ base y n).Keeps i
      (Done i (.ofNames (x ++ y ++ [n])) chunks) (t.session p options chunks).run s := by
  rw [t.session_look hphase hq hnew]
  rcases place_cases hfree s with hnone | ⟨number, hfile⟩
  · refine ⟨s.pass i, rfl, pass_does, fun s' hsees => ?_⟩
    change (overlap ι d₀ base y n).Keeps i _ (t.afterLook _ options chunks
      (seen (t.localPath _) s.world.disk)) s'
    rw [seen_absent hnone]
    refine (makeNew_keeps hfree options (hsees.1.passed i (.inl rfl))).next fun stream s₁ h₁ => ?_
    exact (fill_keeps h₁ hroom).mono fun result s₂ ⟨_, hok, h₂⟩ => .inl ⟨hok, h₂⟩
  · refine ⟨s, rfl, quiet s, fun s' hsees => ?_⟩
    change (overlap ι d₀ base y n).Keeps i _ (t.afterLook _ options chunks
      (seen (t.localPath _) s.world.disk)) s'
    rw [seen_file (place_file hfree hfile)]
    exact .inr ⟨rfl, fun h => hi (hsees.2.1 h), number, hfile.later hsees.1⟩

/-- A session that begins when the file is there is told so, whatever the others do. -/
theorem late_told [DecidableEq ι] {Q : ι → Except Fault Unit → Overlap ι d₀ base y n → Prop}
    {c e : Crowd ι World (Except Fault Unit)} {chunks : List (List Byte)}
    (hc : (overlap ι d₀ base y n).Holds Q c s) (hfile : ∃ number, File s number)
    (hi : c.parties i = (t.session p options chunks).run) (he : c.Reaches e) :
    ∃ s', (overlap ι d₀ base y n).Holds Q e s' ∧ (∃ number, File s' number) ∧
      (e.parties i = (t.session p options chunks).run ∨
        e.parties i = .done (.error (.alreadyExists (Path.ofNames (x ++ y ++ [n])).text))) := by
  induction he with
  | refl => exact ⟨s, hc, hfile, .inl hi⟩
  | @tail b e _ hmove ih =>
    obtain ⟨s₁, h₁, ⟨number, hfile₁⟩, hparty⟩ := ih
    obtain ⟨s₂, ⟨j', hdoes⟩, h₂⟩ := h₁.move hmove
    refine ⟨s₂, h₂, ⟨number, hfile₁.later hdoes.1⟩, ?_⟩
    cases hmove with
    | @party j act next hstep =>
      dsimp only
      by_cases hj : i = j
      · subst hj
        rw [Function.update_self]
        refine .inr ?_
        rcases hparty with hsession | hdone
        · rw [hsession, t.session_look hphase hq hnew] at hstep
          obtain ⟨-, rfl⟩ := Steps.step.inj hstep
          rw [← h₁.shared]
          exact congrArg (t.afterLook _ options chunks) (seen_file (place_file hfree hfile₁))
        · rw [hdone] at hstep
          cases hstep
      · rw [Function.update_of_ne hj]
        exact hparty

end Steps

end Mount

end VolumeFS
