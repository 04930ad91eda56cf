import Mathlib.Data.List.Perm.Subperm
import VolumeFS.Proofs.Disk.Change
import VolumeFS.Proofs.Mount.Path
import VolumeFS.Proofs.Tree.Contents

/-!
# The mounted directory as a served tree

A mount on a plain disk serves what lies below the mounted directory, as long as
each path there is one that the system takes. The single-entry steps act on the
nodes below that directory as the tree operations need it.
-/

set_option autoImplicit false

namespace VolumeFS

open Disk

def Disk.Node.kind (a : Node) : EntryKind :=
  if a.isDirectory then .directory else .file

def Disk.under (d : Disk) (base : Place) : Tree.Layout Node := fun x => d.node? (base ++ x)

def Disk.held (bodies : List Body) : Node → Volume.Content
  | .file number => .file (bodies.getD number ⟨[], 0⟩).data
  | .directory _ => .directory
  | .link _ => .file []

def Disk.contents (d : Disk) (base : Place) : Tree.Contents :=
  fun x => (d.under base x).map (held d.bodies)

namespace Disk

theorem held_kind (bodies : List Body) (a : Node) : (held bodies a).kind = a.kind := by
  cases a <;> rfl

theorem kind_directory {a : Node} : a.kind = .directory ↔ a.isDirectory = true := by
  unfold Node.kind
  split_ifs with h <;> simp [h]

theorem under_update {d d' : Disk} {base x : Place} {a? : Option Node}
    (h : d'.node? = Function.update d.node? (base ++ x) a?) :
    d'.under base = Function.update (d.under base) x a? := by
  funext y
  rw [under, h]
  by_cases hy : y = x
  · rw [hy, Function.update_self, Function.update_self]
  · rw [Function.update_of_ne hy, Function.update_of_ne (by simpa using hy), under]

theorem open_of_clear {d : Disk} {base x : Place} (h : Tree.Clear Node.kind (d.under base) x) :
    d.Open base x :=
  fun y z a hx hz ha => kind_directory.1 (h y z a hx hz ha)

theorem places_bounded {d : Disk} {l : List Place} (hl : l.Nodup)
    (hfound : ∀ x ∈ l, ∃ a, d.node? x = some a) : l.length ≤ d.nodes.length := by
  have hsub : l ⊆ Table.keys d.nodes := fun x hx => mem_keys.2 (hfound x hx)
  simpa [Table.keys] using (hl.subperm hsub).length_le

section List

variable {d : Disk} {x : Place}

def namesIn (d : Disk) (x : Place) : List String :=
  Text.sortedNames (d.nodes.filterMap fun entry => if isIn x entry.1 then entry.1.getLast? else none)

theorem lastIn_iff {p : Place} {n : String} :
    (if isIn x p = true then p.getLast? else none) = some n ↔ p = x ++ [n] := by
  constructor
  · intro h
    split_ifs at h with hin
    obtain ⟨m, rfl⟩ := isIn_iff.1 hin
    rw [List.getLast?_concat] at h
    cases h
    rfl
  · rintro rfl
    rw [if_pos (isIn_iff.2 ⟨n, rfl⟩), List.getLast?_concat]

theorem mem_namesIn {n : String} : n ∈ d.namesIn x ↔ ∃ a, d.node? (x ++ [n]) = some a := by
  rw [namesIn, Text.sortedNames, List.mem_mergeSort, List.mem_filterMap, ← mem_keys]
  constructor
  · rintro ⟨entry, hmem, hn⟩
    exact List.mem_map.2 ⟨entry, hmem, lastIn_iff.1 hn⟩
  · intro hk
    obtain ⟨entry, hmem, hk⟩ := List.mem_map.1 hk
    exact ⟨entry, hmem, lastIn_iff.2 hk⟩

theorem namesIn_nodup (h : (Table.keys d.nodes).Nodup) (x : Place) : (d.namesIn x).Nodup := by
  have hkeys : (d.nodes.filterMap fun entry => if isIn x entry.1 then entry.1.getLast? else none) =
      (Table.keys d.nodes).filterMap fun p => if isIn x p then p.getLast? else none := by
    rw [Table.keys, List.filterMap_map]
    rfl
  rw [namesIn, Text.sortedNames, hkeys]
  refine (List.mergeSort_perm _ _).nodup_iff.2 (h.filterMap ?_)
  intro a b n ha hb
  rw [lastIn_iff.1 ha, lastIn_iff.1 hb]

theorem readDirectory_ok {path : String} {names : List String} :
    d.readDirectory path = .ok names ↔
      ∃ y mode, d.find path = .ok (y, .directory mode) ∧ names = d.namesIn y := by
  constructor
  · intro h
    obtain ⟨⟨y, _ | _ | _⟩, hfind, hlisted⟩ := bind_eq_ok.1 h
    · exact ⟨y, _, hfind, (Except.ok.inj hlisted).symm⟩
    · cases hlisted
    · cases hlisted
  · rintro ⟨y, mode, hfind, rfl⟩
    exact bind_eq_ok.2 ⟨_, hfind, rfl⟩

end List

end Disk

namespace Mount

variable {t : Mount Run} {base : Place}

structure Holds (t : Mount Run) (base : Place) (d : Disk) : Prop where
  plain : d.Plain
  seated : t.Seated base d
  here : ∃ mode, d.node? base = some (.directory mode)
  fits : ∀ x a, d.node? (base ++ x) = some a → t.Fits x

theorem Seated.same {d d' : Disk} (h : t.Seated base d) (hd : d'.current = d.current) :
    t.Seated base d' :=
  ⟨h.named, h.nul, h.down, by rw [hd]; exact h.place⟩

theorem outcome_look {α : Type} (path : String) (f : Disk → Except IoError α) (w : World) :
    outcome (naming path (Disk.look f : ExceptT IoError Run α)) w =
      ((f w.disk).mapError (Fault.ofIo · path), w) := rfl

theorem outcome_act {α : Type} (path : String) (f : Disk → Except IoError (α × Disk)) (w : World) :
    outcome (naming path (Disk.act f : ExceptT IoError Run α)) w =
      match f w.disk with
      | .ok (a, d) => (.ok a, { w with disk := d })
      | .error e => (.error (.ofIo e path), w) := by
  change (Except.mapError _ _, World.mk _ _ _ _ _ _) = _
  rcases f w.disk with _ | ⟨a, d⟩ <;> rfl

theorem outcome_update_ok {path : String} {f : Disk → Except IoError Disk} {w : World} {d : Disk}
    (h : f w.disk = .ok d) :
    outcome (naming path (Disk.update f : ExceptT IoError Run Unit)) w =
      (.ok (), { w with disk := d }) := by
  unfold Disk.update
  rw [outcome_act, h]
  rfl

theorem outcome_update_error {path : String} {f : Disk → Except IoError Disk} {w : World}
    {e : IoError} (h : f w.disk = .error e) :
    outcome (naming path (Disk.update f : ExceptT IoError Run Unit)) w =
      (.error (.ofIo e path), w) := by
  unfold Disk.update
  rw [outcome_act, h]
  rfl

section Below

variable {d : Disk} (h : t.Holds base d) {x : List String} (hx : t.Fits x)
  (hclear : Tree.Clear Node.kind (d.under base) x)

include h hx hclear

theorem find_below : d.find (t.localPath (.ofNames x)) =
    match d.under base x with
    | some node => .ok (base ++ x, node)
    | none => .error noEntry := by
  obtain ⟨mode, hbase⟩ := h.here
  exact find_leads h.plain hbase (h.seated.leads hx) hx.names (open_of_clear hclear)

theorem metadata_below : d.metadata (t.localPath (.ofNames x)) =
    match d.under base x with
    | some (.file number) => .ok ⟨false, UInt64.ofNat (d.body number).data.length⟩
    | some _ => .ok ⟨true, 0⟩
    | none => .error noEntry := by
  unfold Disk.metadata
  rw [find_below h hx hclear]
  rcases d.under base x with _ | _ | _ | _ <;> rfl

end Below

section Parent

variable {d : Disk} (h : t.Holds base d) {x : List String} {n : String} (hx : t.Fits (x ++ [n]))
  (hclear : Tree.Clear Node.kind (d.under base) (x ++ [n]))

include h hx hclear

theorem parent_below : d.parent (t.localPath (.ofNames (x ++ [n]))) =
    if (d.under base x).isSome then .ok (base ++ x, .name n true) else .error noEntry := by
  obtain ⟨mode, hbase⟩ := h.here
  exact parent_leads h.plain hbase (h.seated.leads hx) hx.names (open_of_clear hclear)

end Parent

theorem kind_outcome (p : Path) (w : World) :
    outcome (t.kind p) w =
      (match w.disk.metadata (t.localPath p) with
        | .ok found => .ok (some (if found.isDirectory then .directory else .file))
        | .error e => if e.kind = IoKind.notFound then .ok none
          else .error (.ofIo e (t.localPath p)), w) := by
  have hlook : (DiskAccess.metadata (t.localPath p) : ExceptT IoError Run Metadata).run w =
      (w.disk.metadata (t.localPath p), w) := rfl
  unfold outcome kind
  simp only [ExceptT.run_mk, bind, StateT.bind, hlook]
  cases w.disk.metadata (t.localPath p) <;> rfl

theorem kind_below {w : World} (h : t.Holds base w.disk) {x : List String} (hx : t.Fits x)
    (hclear : Tree.Clear Node.kind (w.disk.under base) x) :
    outcome (t.kind (.ofNames x)) w = (.ok ((w.disk.under base x).map Node.kind), w) := by
  rw [kind_outcome, metadata_below h hx hclear]
  cases hl : w.disk.under base x with
  | none => rfl
  | some a =>
    cases a with
    | directory mode => rfl
    | file number => rfl
    | link target => exact absurd hl (h.plain.links _ target)

theorem Holds.above {d : Disk} (h : t.Holds base d) {x : List String} {n : String} {a : Node}
    (ha : d.under base (x ++ [n]) = some a) :
    ∃ mode, d.under base x = some (.directory mode) := by
  rw [under, ← List.append_assoc] at ha
  exact h.plain.above ha

theorem Holds.clear_found {d : Disk} (h : t.Holds base d) {x : List String} {a : Node}
    (ha : d.under base x = some a) : Tree.Clear Node.kind (d.under base) x :=
  fun y z b hx hz hb => kind_directory.2 (h.plain.open_found ha y z b hx hz hb)

theorem Holds.clear_child {d : Disk} (h : t.Holds base d) {x : List String} {mode : UInt32}
    (hx : d.under base x = some (.directory mode)) (n : String) :
    Tree.Clear Node.kind (d.under base) (x ++ [n]) :=
  (h.clear_found hx).child hx rfl n

theorem parent_found {d : Disk} (h : t.Holds base d) {x : List String} {n : String}
    (hx : t.Fits (x ++ [n])) {mode : UInt32} (hd : d.under base x = some (.directory mode)) :
    d.parent (t.localPath (.ofNames (x ++ [n]))) = .ok (base ++ x, .name n true) := by
  rw [parent_below h hx (h.clear_child hd n), hd]
  rfl

theorem under_child (d : Disk) (base : Place) (x : List String) (n : String) :
    d.under base (x ++ [n]) = d.node? (base ++ x ++ [n]) := by
  rw [under, List.append_assoc]

theorem childNames_found {q : Path} {y : Place} {mode : UInt32} {w : World}
    (h : w.disk.find (t.localPath q) = .ok (y, .directory mode)) :
    outcome ((t.tree : Tree Run).childNames q) w = (.ok (w.disk.namesIn y), w) := by
  change outcome (naming _ (Disk.look _)) w = _
  rw [outcome_look, readDirectory_ok.2 ⟨y, mode, h, rfl⟩]
  rfl

theorem childNames_below {w : World} (h : t.Holds base w.disk) {x : List String} {mode : UInt32}
    (hx : w.disk.under base x = some (.directory mode)) :
    outcome ((t.tree : Tree Run).childNames (.ofNames x)) w =
      (.ok (w.disk.namesIn (base ++ x)), w) := by
  have hfind : w.disk.find (t.localPath (.ofNames x)) = .ok (base ++ x, .directory mode) := by
    rw [find_below h (h.fits x _ hx) (h.clear_found hx), hx]
  exact childNames_found hfind

namespace Holds

variable {d d' : Disk} (h : t.Holds base d)

include h

/-- A new node in a directory. -/
theorem added {x : List String} {n : String} {a : Node} {mode : UInt32} (hx : t.Fits (x ++ [n]))
    (hd : d.under base x = some (.directory mode)) (hfree : d.under base (x ++ [n]) = none)
    (hnodes : d'.nodes = Table.set (base ++ x ++ [n]) a d.nodes)
    (hcurrent : d'.current = d.current) (hlink : ∀ target, a ≠ .link target)
    (hbodies : d.bodies.length ≤ d'.bodies.length)
    (hnew : ∀ number, a = .file number → d.bodies.length ≤ number ∧ number < d'.bodies.length) :
    t.Holds base d' ∧ d'.under base = Function.update (d.under base) (x ++ [n]) (some a) := by
  have hlayout := layout_set hnodes
  have hunder : d'.under base = Function.update (d.under base) (x ++ [n]) (some a) :=
    under_update (by rw [hlayout, List.append_assoc])
  rw [under_child] at hfree
  refine ⟨⟨h.plain.added (fits_above hx).2 hd hfree hnodes hlink hbodies hnew,
    h.seated.same hcurrent, ?_, ?_⟩, hunder⟩
  · obtain ⟨mode', hbase⟩ := h.here
    refine ⟨mode', ?_⟩
    rw [hlayout, Function.update_of_ne (by simp), hbase]
  · intro y b hy
    change d'.under base y = some b at hy
    rw [hunder] at hy
    rcases Tree.update_some_cases hy with ⟨rfl, -⟩ | hy
    · exact hx
    · exact h.fits y b hy

/-- A node with nothing below it is gone. -/
theorem erased {x : List String} (hx : x ≠ []) (hleaf : ∀ n, d.under base (x ++ [n]) = none)
    (hnodes : d'.nodes = Table.erase (base ++ x) d.nodes) (hcurrent : d'.current = d.current)
    (hbodies : d'.bodies = d.bodies) :
    t.Holds base d' ∧ d'.under base = Function.update (d.under base) x none := by
  have hlayout := layout_erase hnodes
  have hunder : d'.under base = Function.update (d.under base) x none := under_update hlayout
  have hleaf' : ∀ n, d.node? (base ++ x ++ [n]) = none := by
    intro n
    rw [← under_child]
    exact hleaf n
  refine ⟨⟨h.plain.erased (by simp [hx]) hleaf' hnodes hbodies, h.seated.same hcurrent, ?_, ?_⟩,
    hunder⟩
  · obtain ⟨mode, hbase⟩ := h.here
    refine ⟨mode, ?_⟩
    rw [hlayout, Function.update_of_ne (by simpa using hx), hbase]
  · intro y b hy
    change d'.under base y = some b at hy
    rw [hunder] at hy
    exact h.fits y b (Tree.update_none_before hy).2

end Holds

section Steps

variable {w : World} (hw : t.Holds base w.disk) {x : List String}

include hw

/-- A directory that is made changes the nodes alone. -/
theorem make_below {n : String} {mode : UInt32} (hx : t.Fits (x ++ [n]))
    (hd : w.disk.under base x = some (.directory mode))
    (hfree : w.disk.under base (x ++ [n]) = none) :
    ∃ w' mode', outcome ((t.tree : Tree Run).makeDirectory (.ofNames (x ++ [n]))) w =
        (.ok (), w') ∧ t.Holds base w'.disk ∧ w'.disk.bodies = w.disk.bodies ∧
      w'.disk.under base =
        Function.update (w.disk.under base) (x ++ [n]) (some (.directory mode')) := by
  have hparent := parent_found hw hx hd
  have hfree' := hfree
  rw [under_child] at hfree'
  obtain ⟨mode', hmade⟩ := createDirectory_free hparent (fits_above hx).2 hfree'
  obtain ⟨hw', hl'⟩ : t.Holds base { w.disk with
      nodes := Table.set (base ++ x ++ [n]) (.directory mode') w.disk.nodes } ∧ _ :=
    hw.added hx hd hfree rfl rfl (by simp) (Nat.le_refl _) (by simp)
  exact ⟨_, mode', outcome_update_ok hmade, hw', rfl, hl'⟩

/-- So does the removal of a node with nothing below it. -/
theorem removeEntry_below {n : String} {a : Node} (ha : w.disk.under base (x ++ [n]) = some a)
    (hleaf : ∀ m, w.disk.under base (x ++ [n] ++ [m]) = none) :
    ∃ w', outcome ((t.tree : Tree Run).removeEntry (.ofNames (x ++ [n])) a.kind) w =
        (.ok (), w') ∧ t.Holds base w'.disk ∧ w'.disk.bodies = w.disk.bodies ∧
      w'.disk.under base = Function.update (w.disk.under base) (x ++ [n]) none := by
  have hfits := hw.fits _ _ ha
  obtain ⟨mode, hd⟩ := hw.above ha
  have hparent := parent_found hw hfits hd
  have hn := (fits_above hfits).2
  have hthere := ha
  rw [under_child] at hthere
  obtain ⟨hw', hl'⟩ : t.Holds base { w.disk with
      nodes := Table.erase (base ++ x ++ [n]) w.disk.nodes } ∧ _ :=
    hw.erased (by simp) hleaf (by rw [List.append_assoc]) rfl rfl
  refine ⟨{ w with disk := { w.disk with
    nodes := Table.erase (base ++ x ++ [n]) w.disk.nodes } }, ?_, hw', rfl, hl'⟩
  cases a with
  | directory mode' =>
    have hleaf' : ∀ m, w.disk.node? (base ++ x ++ [n] ++ [m]) = none := by
      intro m
      have hm := hleaf m
      rwa [under_child, ← List.append_assoc] at hm
    exact outcome_update_ok (removeDirectory_empty hparent hn hthere hleaf')
  | file number => exact outcome_update_ok (removeFile_found hparent hn hthere)
  | link target => exact absurd hthere (hw.plain.links _ target)

end Steps

/-- The steps change nodes and leave the bytes of all files alone. -/
theorem tree_serves (t : Mount Run) (base : Place) (bodies : List Body) :
    Tree.Serves (t.tree : Tree Run) Node.kind (fun w => w.disk.under base)
      (fun w => t.Holds base w.disk ∧ w.disk.bodies = bodies) t.Fits where
  root := by
    rintro w ⟨hw, -⟩
    obtain ⟨mode, hbase⟩ := hw.here
    exact ⟨_, by rw [under, List.append_nil, hbase], rfl⟩
  above := by
    rintro w x n a ⟨hw, -⟩ ha
    obtain ⟨mode, hd⟩ := hw.above ha
    exact ⟨_, hd, rfl⟩
  fits := fun w x a hw ha => hw.1.fits x a ha
  fits_above := fun x n hx => ⟨(fits_above hx).1, (fits_above hx).2.name⟩
  kind := fun w x hw hx hclear => kind_below hw.1 hx hclear
  make := by
    rintro w x n a ⟨hw, hbodies⟩ hx ha hdir hfree
    obtain ⟨mode, rfl⟩ := isDirectory_iff.1 (kind_directory.1 hdir)
    obtain ⟨w', mode', hmake, hw', hsame, hl'⟩ := make_below hw hx ha hfree
    exact ⟨w', _, hmake, ⟨hw', hsame.trans hbodies⟩, rfl, hl'⟩
  childNames := by
    rintro w x a ⟨hw, -⟩ ha hdir
    obtain ⟨mode, rfl⟩ := isDirectory_iff.1 (kind_directory.1 hdir)
    exact ⟨w.disk.namesIn (base ++ x), childNames_below hw ha, namesIn_nodup hw.plain.unique _,
      fun n => by rw [mem_namesIn, ← under_child]⟩
  removeEntry := by
    rintro w x a ⟨hw, hbodies⟩ hx ha hleaf
    obtain ⟨x, n, rfl⟩ := (List.eq_nil_or_concat' x).resolve_left hx
    obtain ⟨w', hremove, hw', hsame, hl'⟩ := removeEntry_below hw ha hleaf
    exact ⟨w', hremove, ⟨hw', hsame.trans hbodies⟩, hl'⟩
  reach := by
    intro w _
    refine ⟨Nat.pow (w.disk.nodes.length + 1) pathLimit, rfl, fun l hl hdirs => ?_⟩
    have hinj : Function.Injective (base ++ ·) := fun y z hyz => List.append_cancel_left hyz
    have hbound := places_bounded (d := w.disk) (hl.map hinj) (fun y hy => by
      obtain ⟨x, hx, rfl⟩ := List.mem_map.1 hy
      obtain ⟨a, ha, -⟩ := hdirs x hx
      exact ⟨a, ha⟩)
    rw [List.length_map] at hbound
    have hpow := Nat.le_self_pow (n := pathLimit) (by decide) (w.disk.nodes.length + 1)
    exact Nat.le_trans hbound (Nat.le_trans (Nat.le_succ _) hpow)

/-- As the steps leave the bytes of all files alone, they serve the contents. -/
theorem contents_served (t : Mount Run) (base : Place) :
    Tree.Serves (t.tree : Tree Run) Volume.Content.kind (fun w => w.disk.contents base)
      (fun w => t.Holds base w.disk) t.Fits := by
  have hserved : ∀ bodies, Tree.Serves (t.tree : Tree Run) Volume.Content.kind
      (fun w x => (w.disk.under base x).map (held bodies))
      (fun w => t.Holds base w.disk ∧ w.disk.bodies = bodies) t.Fits :=
    fun bodies => (tree_serves t base bodies).seen (held bodies) Volume.Content.kind
      (held_kind bodies)
  have hsame : ∀ {w w' : World}, w'.disk.bodies = w.disk.bodies → w'.disk.contents base =
      fun x => (w'.disk.under base x).map (held w.disk.bodies) := by
    intro w w' hbodies
    funext x
    rw [Disk.contents, hbodies]
  exact
    { root := fun w hw => (hserved w.disk.bodies).root w ⟨hw, rfl⟩
      above := fun w x n a hw => (hserved w.disk.bodies).above w x n a ⟨hw, rfl⟩
      fits := fun w x a hw => (hserved w.disk.bodies).fits w x a ⟨hw, rfl⟩
      fits_above := (hserved []).fits_above
      kind := fun w x hw => (hserved w.disk.bodies).kind w x ⟨hw, rfl⟩
      make := by
        intro w x n d hw hx hd hdir hfree
        obtain ⟨w', a, hmake, ⟨hw', hbodies⟩, ha, hl⟩ :=
          (hserved w.disk.bodies).make w x n d ⟨hw, rfl⟩ hx hd hdir hfree
        exact ⟨w', a, hmake, hw', ha, (hsame hbodies).trans hl⟩
      childNames := fun w x d hw => (hserved w.disk.bodies).childNames w x d ⟨hw, rfl⟩
      removeEntry := by
        intro w x a hw hx ha hleaf
        obtain ⟨w', hremove, ⟨hw', hbodies⟩, hl⟩ :=
          (hserved w.disk.bodies).removeEntry w x a ⟨hw, rfl⟩ hx ha hleaf
        exact ⟨w', hremove, hw', (hsame hbodies).trans hl⟩
      reach := fun w hw => (hserved w.disk.bodies).reach w ⟨hw, rfl⟩ }

end Mount

end VolumeFS
