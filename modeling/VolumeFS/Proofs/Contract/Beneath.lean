import VolumeFS.Proofs.Client.Tree
import VolumeFS.Proofs.Contract.Client
import VolumeFS.Proofs.Mount.Links
import VolumeFS.Proofs.Mount.QuickRead

/-!
# Paths that lead through a file

Nothing lies below a file, and no operation puts anything there. A client finds
no entry at such a path, as at any other place that is free. On a mount the
system refuses to walk on from the file, which is another error than that of a
missing entry, and the operations pass it on. Only where directories are made
each of them is looked at on the way down, so that both find the file and name it.
-/

set_option autoImplicit false

namespace VolumeFS

namespace Tree

structure Barred (t : Tree Run) (w : World) (a : List String) : Prop where
  named : a ≠ []
  above : ∀ y z, a = y ++ z → y ≠ [] → z ≠ [] →
    outcome (t.kind (.ofNames y)) w = (.ok (some .directory), w)
  file : outcome (t.kind (.ofNames a)) w = (.ok (some .file), w)

def inTheWay (a : List String) : Fault :=
  .alreadyExists s!"{(Path.ofNames a).text} exists and is not a directory"

namespace Barred

variable {t : Tree Run} {w : World} {a : List String} (h : t.Barred w a)

include h

theorem makeAll (rest way b : List String) (ha : a = way ++ rest) (hrest : rest ≠ []) :
    outcome (t.makeAll (Path.descent way (rest ++ b))) w = (.error (inTheWay a), w) := by
  induction rest generalizing way with
  | nil => exact absurd rfl hrest
  | cons n rest ih =>
    have hsplit : a = way ++ [n] ++ rest := by rw [ha, List.append_assoc, List.singleton_append]
    rw [List.cons_append, Path.descent, Tree.makeAll]
    by_cases hlast : rest = []
    · subst hlast
      rw [List.append_nil] at hsplit
      have hkind := h.file
      rw [hsplit] at hkind ⊢
      rw [outcome_bind_ok hkind]
      rfl
    · rw [outcome_bind_ok (h.above _ _ hsplit (by simp) hlast)]
      exact ih (way ++ [n]) hsplit hlast

theorem mkdirs (b : List String) :
    outcome (t.mkdirs (.ofNames (a ++ b))) w = (.error (inTheWay a), w) := by
  unfold Tree.mkdirs
  rw [Path.ofNames_lineage]
  exact h.makeAll a [] b rfl h.named

theorem ensureParent {b : List String} (hb : b ≠ []) :
    outcome (t.ensureParent (.ofNames (a ++ b))) w = (.error (inTheWay a), w) := by
  obtain ⟨b, n, rfl⟩ := (List.eq_nil_or_concat' b).resolve_left hb
  have hroot : (Path.ofNames (a ++ b)).isRoot = false := by
    simp [Path.isRoot, Path.ofNames, h.named]
  unfold Tree.ensureParent
  rw [← List.append_assoc, Path.ofNames_parent]
  dsimp only
  rw [hroot, if_neg (by decide)]
  exact h.mkdirs b

end Barred

end Tree

structure Answers where
  /-- Whether something is there. -/
  there : Except Fault Bool
  /-- The fault of a status, a listing and of opening a file. -/
  looked : Fault
  /-- The fault of a delete and of moving the path. -/
  moved : Fault
  created : Fault
  made : Fault

namespace Answers

variable {φ ρ ω : Type} [FileSystem φ Run ρ ω]

/-- These are the answers about the path, whatever is asked for, and nothing is changed. A move is
asked for to one of the destinations. -/
structure Of (answers : Answers) (fs : φ) (p : Path) (destinations : Path → Prop) (w : World) :
    Prop where
  isThere : outcome (FileSystem.isThere fs p) w = (answers.there, w)
  status : outcome (FileSystem.status fs p) w = (.error answers.looked, w)
  list : outcome (FileSystem.list fs p) w = (.error answers.looked, w)
  openFile : outcome (FileSystem.openFile fs p) w = (.error answers.looked, w)
  delete : ∀ recursive, outcome (FileSystem.delete fs p recursive) w = (.error answers.moved, w)
  rename : ∀ q, destinations q → outcome (FileSystem.rename fs p q) w = (.error answers.moved, w)
  create : ∀ options, outcome (FileSystem.create fs p options) w = (.error answers.created, w)
  mkdirs : ∀ permission, outcome (FileSystem.mkdirs fs p permission) w = (.error answers.made, w)

/-- Nothing is there, and the file at `a` is in the way of making it. -/
def absent (a x : List String) : Answers where
  there := .ok false
  looked := .notFound (Path.ofNames x).text
  moved := .notFound (Path.ofNames x).text
  created := Tree.inTheWay a
  made := Tree.inTheWay a

/-- The system does not walk on from the file at `a`; each fault names what was looked at. -/
def refused (a x : List String) (file : String) : Answers where
  there := .error (.notADirectory file)
  looked := .notADirectory (Path.ofNames x).text
  moved := .notADirectory file
  created := .notADirectory file
  made := Tree.inTheWay a

end Answers

namespace Client

open Volume

variable {c : Client Run} {w : World} {a b : List String}

def Takes (c : Client Run) (q : Path) : Prop := ∃ r, c.resolver.resolve q = .ok r

theorem tree_barred (hw : w.volume.WellFormed) {e : Entry} (he : w.entries a = some e)
    (hfile : e.kind = .file) : (tree : Tree Run).Barred w a where
  named := by
    rintro rfl
    obtain ⟨r, hr, hdir⟩ := hw.root
    cases he.symm.trans hr
    rw [kind_directory.2 hdir] at hfile
    cases hfile
  above := by
    rintro y z rfl - hz
    obtain ⟨d, hd, hdir⟩ := hw.directory_above hz he
    have hkind : w.entries y = some d := hd
    rw [tree_kind (hw.normal y hd), hkind, Option.map_some, kind_directory.2 hdir]
  file := by rw [tree_kind (hw.normal a he), he, Option.map_some, hfile]

/-- To a client what is below a file is absent. -/
theorem absent_beneath (hw : w.volume.WellFormed) {p : Path}
    (hp : c.resolver.resolve p = .ok (.ofNames (a ++ b))) (hb : ∀ n ∈ b, IsName n) (hb0 : b ≠ [])
    {e : Entry} (he : w.entries a = some e) (hfile : e.kind = .file) :
    (Answers.absent a (a ++ b)).Of c p c.Takes w := by
  have hx : ∀ n ∈ a ++ b, IsName n := List.forall_mem_append.2 ⟨hw.normal a he, hb⟩
  have hnone : w.entries (a ++ b) = none := by
    refine hw.nothing_below hb0 fun d hd hdir => ?_
    cases he.symm.trans hd
    rw [kind_directory.2 hdir] at hfile
    cases hfile
  have hbarred := tree_barred hw he hfile
  have hresolve := resolve_outcome hp w
  have hstat := stat_outcome hx (w := w)
  rw [hnone] at hstat
  have hrequire := requireStat_outcome hx (w := w)
  rw [hnone] at hrequire
  have hkind := tree_kind hx w
  rw [hnone] at hkind
  constructor
  case isThere =>
    change outcome (c.isThere p) w = _
    unfold isThere
    rw [outcome_bind_ok hresolve, outcome_bind_ok hstat]
    rfl
  case status =>
    change outcome (c.status p) w = _
    unfold status
    rw [outcome_bind_ok hresolve, outcome_bind_error hrequire]
    rfl
  case list =>
    change outcome (c.list p) w = _
    unfold list
    rw [outcome_bind_ok hresolve, outcome_bind_error hrequire]
    rfl
  case openFile =>
    change outcome (c.openFile p) w = _
    rw [openFile_outcome hp hx, hnone]
    rfl
  case delete =>
    intro recursive
    change outcome (c.delete p recursive) w = _
    unfold delete Tree.remove
    rw [outcome_bind_ok hresolve, outcome_bind_ok hkind]
    rfl
  case rename =>
    rintro q ⟨r, hr⟩
    change outcome (c.rename p q) w = _
    unfold rename
    rw [outcome_bind_ok hresolve, outcome_bind_ok (resolve_outcome hr w),
      outcome_bind_error hrequire]
    rfl
  case create =>
    intro options
    have hclear : outcome (clear (.ofNames (a ++ b)) options.overwrite : ExceptT Fault Run Unit) w =
        (.ok (), w) := by
      unfold clear
      rw [outcome_bind_ok hstat]
      rfl
    change outcome (c.create p options) w = _
    unfold create makeFile
    rw [outcome_bind_ok hresolve, outcome_bind_ok hclear,
      outcome_bind_error (hbarred.ensureParent hb0)]
    rfl
  case mkdirs =>
    intro permission
    change outcome (c.mkdirs p permission) w = _
    unfold mkdirs
    rw [outcome_bind_ok hresolve, outcome_bind_error (hbarred.mkdirs b)]
    rfl

end Client

namespace Mount

open Disk

variable {t : Mount Run} {w : World} {d : Disk} {a b : List String} {place : Place} {number : Nat}

def Takes (t : Mount Run) (q : Path) : Prop := ∃ r, t.logical q = .ok r

section Found

variable (hne : t.directory ≠ "")
  (hfile : d.find (t.localPath (.ofNames a)) = .ok (place, .file number))

include hne hfile

/-- The directories above a file are there. -/
theorem onward_file {y z : List String} (ha : a = y ++ z) (hnames : ∀ n ∈ z, IsName n)
    (hz : z ≠ []) : ∃ base, d.Onward (t.localPath (.ofNames y)) base [] := by
  subst ha
  obtain ⟨start, hroute, hwalk⟩ := find_walked.1 hfile
  obtain ⟨before, hparts, -⟩ := (localPath_below hne y hnames).parts
  obtain ⟨left, base, hway⟩ := walk_through hwalk hparts hz
  rw [hparts] at hroute
  exact ⟨base, onward_upper hne hnames ⟨start, before, left, hroute, hway⟩⟩

/-- A look at what is below a file fails. -/
theorem metadata_beneath (hfits : t.Fits (a ++ b)) (hb : b ≠ []) :
    d.metadata (t.localPath (.ofNames (a ++ b))) = .error notDirectory := by
  have hnames : ∀ n ∈ b, IsName n := fun n hn => (hfits.names n (List.mem_append_right _ hn)).name
  obtain ⟨start, hroute, hwalk⟩ := find_walked.1 hfile
  obtain ⟨before, hparts, hbefore⟩ := (localPath_below hne a hnames).parts
  have hfirst : Disk.parts (t.localPath (.ofNames a)) = before := by
    refine hbefore.resolve_right fun hslash => ?_
    -- what ends with a slash leads to no file
    obtain ⟨left, base, hway⟩ := walk_through hwalk hslash (by simp)
    obtain ⟨mode, hdir⟩ := hway.directory
    rw [hslash, hway.walk, walk_still hdir (.inl rfl), walk, hdir] at hwalk
    cases hwalk
  have hbarred : d.walk linkLimit start (before ++ b) = .error notDirectory := by
    rw [← hfirst]
    exact walk_barred hwalk rfl hb
  unfold Disk.metadata find resolve
  rw [route_below hne hroute hfits, hparts]
  simp only [bind, Except.bind, hbarred]

end Found

theorem tree_barred (hne : t.directory ≠ "") (hnames : ∀ n ∈ a, IsName n) (ha : a ≠ [])
    (hfile : w.disk.find (t.localPath (.ofNames a)) = .ok (place, .file number)) :
    (t.tree : Tree Run).Barred w a where
  named := ha
  above := by
    intro y z hsplit _ hz
    obtain ⟨base, hgo⟩ := onward_file hne hfile hsplit
      (fun n hn => hnames n (by rw [hsplit]; exact List.mem_append_right _ hn)) hz
    change outcome (t.kind (.ofNames y)) w = _
    rw [kind_seen, seen_directory hgo]
  file := by
    change outcome (t.kind (.ofNames a)) w = _
    rw [kind_seen, seen_file hfile]

/-- On a mount what is below a file is refused: no operation but that of making directories comes
as far as the file. -/
theorem refused_beneath (hphase : t.phase = .mounted) (hne : t.directory ≠ "") {p : Path}
    (hp : t.logical p = .ok (.ofNames (a ++ b))) (hfits : t.Fits (a ++ b)) (ha : a ≠ [])
    (hb : b ≠ []) (hfile : w.disk.find (t.localPath (.ofNames a)) = .ok (place, .file number)) :
    (Answers.refused a (a ++ b) (t.localPath (.ofNames (a ++ b)))).Of t p t.Takes w := by
  have hbarred := tree_barred hne (fun n hn => (hfits.names n (by simp [hn])).name) ha hfile
  have hfound := metadata_beneath hne hfile hfits hb
  have henter := enter_seen hphase hp w
  have hmeta : outcome (t.metadata (.ofNames (a ++ b))) w =
      (.error (.notADirectory (Path.ofNames (a ++ b)).text), w) := by
    change outcome (naming _ (Disk.look _)) w = _
    rw [outcome_look, hfound]
    rfl
  have hkind : outcome (t.kind (.ofNames (a ++ b))) w =
      (.error (.notADirectory (t.localPath (.ofNames (a ++ b)))), w) := by
    rw [kind_outcome, hfound]
    rfl
  constructor
  case isThere =>
    change outcome (t.isThere p) w = _
    unfold isThere
    rw [outcome_bind_ok henter, outcome_bind_error hkind]
    rfl
  case status =>
    change outcome (t.status p) w = _
    unfold status
    rw [outcome_bind_ok henter, outcome_bind_error hmeta]
    rfl
  case list =>
    change outcome (t.list p) w = _
    unfold list
    rw [outcome_bind_ok henter, outcome_bind_error hmeta]
    rfl
  case openFile =>
    change outcome (t.openFile p) w = _
    unfold openFile
    rw [outcome_bind_ok henter, outcome_bind_error hmeta]
    rfl
  case delete =>
    intro recursive
    change outcome (t.delete p recursive) w = _
    unfold delete Tree.remove
    rw [outcome_bind_ok henter]
    exact outcome_bind_error hkind _
  case rename =>
    rintro q ⟨r, hr⟩
    change outcome (t.rename p q) w = _
    unfold rename
    rw [outcome_bind_ok henter, outcome_bind_ok (enter_seen hphase hr w), outcome_bind_error hkind]
    rfl
  case create =>
    intro options
    have hfree : outcome (t.checkFree (.ofNames (a ++ b)) options.overwrite) w =
        (.error (.notADirectory (t.localPath (.ofNames (a ++ b)))), w) := by
      unfold checkFree
      exact outcome_bind_error hkind _
    change outcome (t.create p options) w = _
    unfold create
    rw [outcome_bind_ok henter, outcome_bind_error hfree]
    rfl
  case mkdirs =>
    intro permission
    change outcome (t.mkdirs p permission) w = _
    unfold mkdirs
    rw [outcome_bind_ok henter, outcome_bind_error (hbarred.mkdirs b)]
    rfl

end Mount

/-- A path leads on from a file. The client answers as if nothing were there, and makes nothing
there. A mount refuses instead, in words that tell the path from one that is merely absent, save
that making directories fails on both with the same fault. Neither changes anything, whatever the
links by which the mount got to the file. -/
theorem beneath_file {p : Path} {a b : List String} {w : World} (ha : a ≠ []) (hb : b ≠ []) :
    (∀ c : Client Run, w.volume.WellFormed → c.resolver.resolve p = .ok (.ofNames (a ++ b)) →
      (∀ n ∈ b, IsName n) → (∃ e, w.entries a = some e ∧ e.kind = .file) →
      (Answers.absent a (a ++ b)).Of c p c.Takes w) ∧
    ∀ t : Mount Run, t.phase = .mounted → t.directory ≠ "" →
      t.logical p = .ok (.ofNames (a ++ b)) → t.Fits (a ++ b) →
      (∃ place number, w.disk.find (t.localPath (.ofNames a)) = .ok (place, .file number)) →
      (Answers.refused a (a ++ b) (t.localPath (.ofNames (a ++ b)))).Of t p t.Takes w := by
  constructor
  · rintro c hw hp hnames ⟨e, he, hfile⟩
    exact Client.absent_beneath hw hp hnames hb he hfile
  · rintro t hphase hne hp hfits ⟨place, number, hfile⟩
    exact Mount.refused_beneath hphase hne hp hfits ha hb hfile

def twins : World :=
  { Mount.stocked with
    volume := (Volume.empty "v" 0 0).put ⟨["f"]⟩ ⟨.file [7], 0o644, 0, 0⟩ }

theorem twins_wellFormed : twins.volume.WellFormed := by
  have hempty := Volume.empty_wellFormed "v" 0 0
  obtain ⟨r, hr, hdir⟩ := hempty.root
  exact hempty.put_new (x := []) (n := "f") (by decide) hr hdir rfl (by decide) (by decide)

theorem twins_found :
    twins.disk.find (Mount.standing.localPath (.ofNames ["f"])) = .ok (["mnt", "f"], .file 0) :=
  Disk.find_walked.2 ⟨[], rfl, Mount.stocked_walks.1⟩

theorem standing_fits : Mount.standing.Fits ["f", "x"] :=
  ⟨List.forall_mem_cons.2 ⟨⟨by decide, by simp, by decide⟩,
    List.forall_mem_singleton.2 ⟨by decide, by simp, by decide⟩⟩, by decide⟩

/-- Below the one file the client makes nothing and finds nothing; the mount agrees on the first. -/
theorem twins_answer :
    (Answers.absent ["f"] ["f", "x"]).Of Client.visitor (.ofNames ["f", "x"])
      Client.visitor.Takes twins ∧
    (Answers.refused ["f"] ["f", "x"] "/mnt/f/x").Of Mount.standing (.ofNames ["f", "x"])
      Mount.standing.Takes twins ∧
    (Answers.absent ["f"] ["f", "x"]).made =
      (Answers.refused ["f"] ["f", "x"] "/mnt/f/x").made := by
  obtain ⟨hclient, hmount⟩ :=
    beneath_file (p := .ofNames ["f", "x"]) (a := ["f"]) (b := ["x"]) (w := twins)
      (by decide) (by decide)
  exact ⟨hclient Client.visitor twins_wellFormed rfl (by decide) ⟨_, rfl, rfl⟩,
    hmount Mount.standing rfl (by decide) rfl standing_fits ⟨_, _, twins_found⟩, rfl⟩

/-- The mount does not say that nothing is there, and not that a file is in the way of a new one. -/
theorem twins_differ :
    outcome (Mount.standing.isThere (.ofNames ["f", "x"])) twins =
      (.error (.notADirectory "/mnt/f/x"), twins) ∧
    outcome (Mount.standing.status (.ofNames ["f", "x"])) twins =
      (.error (.notADirectory "/f/x"), twins) ∧
    outcome (Mount.standing.delete (.ofNames ["f", "x"]) true) twins =
      (.error (.notADirectory "/mnt/f/x"), twins) ∧
    outcome (Mount.standing.create (.ofNames ["f", "x"]) ⟨false, none, none⟩) twins =
      (.error (.notADirectory "/mnt/f/x"), twins) := by
  have hanswers := Mount.refused_beneath (t := Mount.standing) (w := twins)
    (p := .ofNames ["f", "x"]) (a := ["f"]) (b := ["x"]) rfl (by decide) rfl standing_fits
    (by decide) (by decide) twins_found
  exact ⟨hanswers.isThere, hanswers.status, hanswers.delete true, hanswers.create _⟩

end VolumeFS
