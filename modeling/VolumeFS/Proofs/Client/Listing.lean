import VolumeFS.Proofs.Contract.Client
import VolumeFS.Proofs.Path.Printed
import VolumeFS.Proofs.Tree.Survey

/-!
# Listings of a volume

A client lists a directory by the names in it, in their order, each with what
the entry of this name is. The path of a status leads to this entry from every
working directory, also after it was printed and read. To list the root, and
then all directories that were listed, is to meet each entry of the volume once.
-/

set_option autoImplicit false

namespace VolumeFS

open Volume

namespace Path

theorem compare_names {a b : String} (h : a ≤ b) : compare a b ≠ .gt := by
  change compareOfLessAndEq a b ≠ .gt
  unfold compareOfLessAndEq
  split_ifs with hlt heq
  · nofun
  · nofun
  · exact absurd (String.le_antisymm h (String.not_lt.1 hlt)) heq

theorem compareOptional_self (a : Option String) : compareOptional a a = .eq := by
  cases a with
  | none => rfl
  | some a => simp [compareOptional]

theorem compareSegments_concat (x : List String) (a b : String) :
    compareSegments (x ++ [a]) (x ++ [b]) = compare a b := by
  induction x with
  | nil =>
    change (compare a b).then .eq = _
    cases compare a b <;> rfl
  | cons n x ih =>
    change (compare n n).then (compareSegments (x ++ [a]) (x ++ [b])) = _
    rw [ih]
    simp

/-- In one directory the order of paths is that of the names. -/
theorem le_concat {p q : Path} {x : List String} {a b : String} (h : a ≤ b)
    (hscheme : p.scheme = q.scheme) (hauthority : p.authority = q.authority)
    (habs : p.absolute = q.absolute) (hp : p.segments = x ++ [a]) (hq : q.segments = x ++ [b]) :
    p.le q = true := by
  have hcompare : p.compare q = compare a b := by
    unfold Path.compare
    rw [hscheme, hauthority, habs, hp, hq, compareOptional_self, compareOptional_self,
      compareSegments_concat]
    cases q.absolute <;> rfl
  rw [le, hcompare]
  simpa using compare_names h

end Path

theorem Permission.ofMode_mode {mode : UInt32} (h : mode ≤ 0o7777) :
    (Permission.ofMode mode).mode = mode := by
  have hbits : mode.toNat ≤ 4095 := UInt32.le_iff_toNat_le.1 h
  refine UInt32.toNat_inj.1 ?_
  have hmask : mode.toNat &&& 4095 = mode.toNat % 4096 := Nat.and_two_pow_sub_one_eq_mod _ 12
  change (mode &&& 4095).toUInt16.toUInt32.toNat = mode.toNat
  rw [UInt16.toNat_toUInt32, UInt32.toNat_toUInt16, UInt32.toNat_and]
  change (mode.toNat &&& 4095) % 65536 = mode.toNat
  omega

namespace Client

structure Shows (c : Client Run) (x : List String) (e : Entry) (s : Status) : Prop where
  path : s.path = c.label (.ofNames x)
  length : s.length.toNat = e.content.length
  kind : s.isDirectory = e.content.isDirectory
  replication : s.replication = 1
  blockSize : s.blockSize = if e.content.isDirectory then 0 else Status.defaultBlockSize
  loaded : s.ownership.loaded = true
  owner : s.ownership.owner = some (toString e.uid.toNat)
  group : s.ownership.group = some (toString e.gid.toNat)
  mode : s.ownership.permission.map Permission.mode = some e.mode

def ShownAt (c : Client Run) (w : World) (x : List String) (s : Status) : Prop :=
  ∃ e, w.entries x = some e ∧ c.Shows x e s

structure Lists (c : Client Run) (w : World) (x : List String) (names : List String)
    (statuses : List Status) : Prop where
  ordered : names.Pairwise (· < ·)
  mem : ∀ n, n ∈ names ↔ Tree.Occupied w.entries (x ++ [n])
  statuses : List.Forall₂ (fun n s => c.ShownAt w (x ++ [n]) s) names statuses

variable {c : Client Run} {w : World} {x : List String}

theorem statusOf_shows (hw : w.volume.WellFormed) {e : Entry} (he : w.entries x = some e) :
    c.Shows x e (c.statusOf (.ofNames x) e.stat) := by
  have hlength : e.content.length ≤ longest := hw.length _ e he
  have hmode := Permission.ofMode_mode (hw.mode _ e he)
  have hpath : c.qualify (.ofNames x) = c.label (.ofNames x) := qualify_names x
  obtain ⟨data | _, mode, uid, gid⟩ := e
  · exact ⟨hpath, UInt64.toNat_ofNat_of_lt' (Nat.lt_of_le_of_lt hlength (by decide)), rfl, rfl, rfl,
      rfl, rfl, rfl, congrArg some hmode⟩
  · exact ⟨hpath, rfl, rfl, rfl, rfl, rfl, rfl, rfl, congrArg some hmode⟩

/-- There is one status that tells what is at a place. -/
theorem Shows.unique {e : Entry} {s t : Status} (hs : c.Shows x e s) (ht : c.Shows x e t) :
    s = t := by
  have hpermission : s.ownership.permission = t.ownership.permission := by
    have hmode : Function.Injective Permission.mode := by
      rintro ⟨a⟩ ⟨b⟩ hab
      have hbits := congrArg UInt32.toNat hab
      rw [Permission.mode, Permission.mode, UInt16.toNat_toUInt32, UInt16.toNat_toUInt32] at hbits
      exact congrArg Permission.mk (UInt16.toNat_inj.1 hbits)
    exact Option.map_injective hmode (hs.mode.trans ht.mode.symm)
  have hlength := UInt64.toNat_inj.1 (hs.length.trans ht.length.symm)
  obtain ⟨path, length, isDirectory, replication, blockSize, loaded, owner, group, permission⟩ := s
  obtain ⟨path', length', isDirectory', replication', blockSize', loaded', owner', group',
    permission'⟩ := t
  obtain ⟨rfl, -, rfl, rfl, rfl, rfl, rfl, rfl, -⟩ := hs
  obtain ⟨rfl, -, rfl, rfl, rfl, rfl, rfl, rfl, -⟩ := ht
  dsimp only at hpermission hlength
  rw [hpermission, hlength]

theorem occupied_contents : Tree.Occupied w.contents x ↔ Tree.Occupied w.entries x := by
  unfold Tree.Occupied World.contents
  cases w.entries x <;> simp

theorem label_le {a b : String} (h : a ≤ b) :
    (c.label (.ofNames (x ++ [a]))).le (c.label (.ofNames (x ++ [b]))) = true :=
  Path.le_concat h rfl rfl rfl rfl rfl

theorem statuses_shown (hw : w.volume.WellFormed) {names : List String}
    (hthere : ∀ n ∈ names, Tree.Occupied w.entries (x ++ [n])) :
    List.Forall₂ (fun n s => c.ShownAt w (x ++ [n]) s) names
      (names.filterMap fun n =>
        (w.entries (x ++ [n])).map fun e => c.statusOf (.ofNames (x ++ [n])) e.stat) := by
  induction names with
  | nil => exact .nil
  | cons n names ih =>
    obtain ⟨⟨e, he⟩, hthere⟩ := List.forall_mem_cons.1 hthere
    rw [List.filterMap_cons, he]
    exact .cons ⟨e, he, statusOf_shows hw he⟩ (ih hthere)

/-- The statuses of the names in a directory, which are in order. -/
theorem statuses_lists (hw : w.volume.WellFormed) {names : List String}
    (hordered : names.Pairwise (· ≤ ·)) (hnodup : names.Nodup)
    (hall : ∀ n, n ∈ names ↔ Tree.Occupied w.entries (x ++ [n])) :
    let statuses := names.filterMap fun n =>
      (w.entries (x ++ [n])).map fun e => c.statusOf (.ofNames (x ++ [n])) e.stat
    (statuses.mergeSort fun a b => a.path.le b.path) = statuses ∧ c.Lists w x names statuses := by
  intro statuses
  refine ⟨List.mergeSort_of_pairwise (List.pairwise_filterMap.2 ?_), ?_, hall, ?_⟩
  · refine hordered.imp fun {a b} hab s hs t ht => ?_
    obtain ⟨e, he, rfl⟩ := Option.map_eq_some_iff.1 hs
    obtain ⟨d, hd, rfl⟩ := Option.map_eq_some_iff.1 ht
    rw [(statusOf_shows hw he).path, (statusOf_shows hw hd).path]
    exact label_le hab
  · refine (hordered.and hnodup).imp fun {a b} hab => ?_
    by_contra hlt
    exact hab.2 (String.le_antisymm hab.1 (String.not_lt.1 hlt))
  · exact statuses_shown hw fun n => (hall n).1

section Listed

variable (hw : w.volume.WellFormed) {p : Path} (hp : c.resolver.resolve p = .ok (.ofNames x))
  {e : Entry} (he : w.entries x = some e)

include hw hp he

theorem status_outcome :
    outcome (c.status p) w = (.ok (c.statusOf (.ofNames x) e.stat), w) := by
  have hstat := requireStat_outcome (w := w) (hw.normal x he)
  rw [he] at hstat
  unfold Client.status
  rw [outcome_bind_ok (resolve_outcome hp w), outcome_bind_ok hstat]
  rfl

theorem list_outcome_file (hfile : e.content ≠ .directory) :
    outcome (c.list p) w = (.ok [c.statusOf (.ofNames x) e.stat], w) := by
  have hstat := requireStat_outcome (w := w) (hw.normal x he)
  rw [he] at hstat
  have hkind : e.stat.isDirectory = false := by
    obtain ⟨data | _, mode, uid, gid⟩ := e
    · rfl
    · exact absurd rfl hfile
  unfold Client.list
  rw [outcome_bind_ok (resolve_outcome hp w), outcome_bind_ok hstat, hkind]
  rfl

theorem list_outcome_directory (hdir : e.content = .directory) :
    ∃ names statuses, outcome (c.list p) w = (.ok statuses, w) ∧ c.Lists w x names statuses := by
  have hnames := hw.normal x he
  have hstat := requireStat_outcome (w := w) hnames
  rw [he] at hstat
  have hkind : e.stat.isDirectory = true := by
    rw [Entry.stat, hdir]
    rfl
  obtain ⟨names, hlist, ⟨hordered, hnodup, hmem⟩, hgood⟩ := listing hw he hdir
  have hnamed : outcome (VolumeAccess.list (key (.ofNames x))) w = (.ok names, w) := by
    rw [Path.ofNames_key hnames, outcome_list, hlist]
  have hstatuses := statuses_outcome (c := c) (w := w) hnames names hgood
  obtain ⟨hsorted, hlists⟩ := statuses_lists (c := c) hw hordered hnodup
    fun n => (hmem n).trans occupied_contents
  refine ⟨_, _, ?_, hlists⟩
  unfold Client.list
  rw [outcome_bind_ok (resolve_outcome hp w), outcome_bind_ok hstat, hkind]
  simp only [Bool.not_true, Bool.false_eq_true, if_false]
  rw [outcome_bind_ok hnamed, outcome_bind_ok hstatuses]
  exact congrArg (fun l => (Except.ok l, w)) hsorted

/-- What an open gives: the bytes of a file, as they are. -/
theorem open_outcome : outcome (c.openFile p) w =
    (match e.content with
      | .file data =>
        .ok (.start (.ofCapacity c.bufferSize ⟨.ofBytes data⟩) .native (c.label (.ofNames x)))
      | .directory => .error (.isADirectory (Path.ofNames x).text), w) := by
  rw [openFile_outcome hp (hw.normal x he), he, Option.map_some, qualify_names]
  cases e.content <;> rfl

end Listed

section Label

variable {d : Client Run}

/-- The paths that statuses carry are resolved without the working directory. -/
theorem resolve_label (hscheme : d.resolver.scheme = Path.volumeScheme) (x : List String) :
    d.resolver.resolve (c.label (.ofNames x)) = .ok (.ofNames x) := by
  have haccepts : d.resolver.accepts (c.label (.ofNames x)) = true := by
    change Text.sameLetters Path.volumeScheme d.resolver.scheme = true
    rw [hscheme]
    decide
  exact Resolver.resolve_absolute rfl haccepts

theorem parse_label (hauthority : '/' ∉ c.authority.toList) (hx : ∀ n ∈ x, IsName n) :
    Path.parse (c.label (.ofNames x)).display = .ok (c.label (.ofNames x)) := by
  have hne : c.label (.ofNames x) ≠ .here := fun h => by cases congrArg Path.absolute h
  refine Path.parse_display
    ⟨Path.leads_names.2 hx, nofun, fun scheme h => ?_, fun authority h => ?_⟩ hne
  · cases h
    exact ⟨by decide, by decide, rfl⟩
  · change (some c.authority).filter (· ≠ "") = some authority at h
    obtain ⟨hsome, hfilled⟩ := Option.filter_eq_some_iff.1 h
    cases hsome
    exact ⟨by simpa using hfilled, hauthority⟩

structure Reaches (c : Client Run) (w : World) (p : Path) (x : List String) (e : Entry)
    (s : Status) : Prop where
  status : outcome (c.status p) w = (.ok s, w)
  opened : outcome (c.openFile p) w =
    (match e.content with
      | .file data => .ok (.start (.ofCapacity c.bufferSize ⟨.ofBytes data⟩) .native s.path)
      | .directory => .error (.isADirectory (Path.ofNames x).text), w)
  file : e.content ≠ .directory → outcome (c.list p) w = (.ok [s], w)
  directory : e.content = .directory →
    ∃ names statuses, outcome (c.list p) w = (.ok statuses, w) ∧ c.Lists w x names statuses

theorem shown_reaches (hw : w.volume.WellFormed) (hscheme : d.resolver.scheme = Path.volumeScheme)
    (hauthority : d.authority = c.authority) {e : Entry} (he : w.entries x = some e) {s : Status}
    (hs : c.Shows x e s) : d.Reaches w s.path x e s := by
  have hlabel : d.label (.ofNames x) = c.label (.ofNames x) := by
    rw [label, hauthority]
    rfl
  have hshows : d.Shows x e s := { hs with path := hs.path.trans hlabel.symm }
  have hstatus := (statusOf_shows hw he).unique hshows
  have hresolve := resolve_label (c := c) hscheme x
  rw [← hs.path] at hresolve
  have hopen := open_outcome hw hresolve he
  rw [← hshows.path] at hopen
  refine ⟨?_, hopen, fun hfile => ?_, list_outcome_directory hw hresolve he⟩
  · rw [status_outcome hw hresolve he, hstatus]
  · rw [list_outcome_file hw hresolve he hfile, hstatus]

end Label

/-- Lists the pending paths and the directories among what is listed, so many at most, and gives all
that was listed. -/
def explore (c : Client Run) : Nat → List Path → ExceptT Fault Run (List Status)
  | _, [] => return []
  | 0, _ :: _ => throw Tree.endless
  | fuel + 1, p :: pending => do
    let listed ← c.list p
    let below ← explore c fuel ((listed.filter Status.isDirectory).map Status.path ++ pending)
    return listed ++ below

section Explore

def directoryAt (w : World) (x : List String) : Bool :=
  (w.entries x).any fun e => e.content.isDirectory

theorem directoryAt_iff : directoryAt w x = true ↔
    ∃ e, w.entries x = some e ∧ e.content = .directory := by
  unfold directoryAt
  cases w.entries x with
  | none => simp
  | some e => cases hc : e.content <;> simp [hc, Content.isDirectory]

theorem ShownAt.kind {s : Status} (h : c.ShownAt w x s) :
    directoryAt w x = true ↔ s.isDirectory = true := by
  obtain ⟨e, he, hs⟩ := h
  rw [directoryAt, he, hs.kind]
  rfl

variable (hw : w.volume.WellFormed)

include hw

/-- To list a directory is to expand its place. -/
theorem Lists.expand {names : List String} {statuses : List Status}
    {found pending : List (List String)} (h : c.Lists w x names statuses)
    (hs : Survey (Tree.Occupied w.entries) [] found (x :: pending)) :
    Survey (Tree.Occupied w.entries) [] (names.map (fun n => x ++ [n]) ++ found)
      ((names.map fun n => x ++ [n]).filter (directoryAt w) ++ pending) := by
  have hinj : Function.Injective fun n : String => x ++ [n] := fun a b hab => by simpa using hab
  have hnodup : (names.map fun n => x ++ [n]).Nodup :=
    List.Nodup.map hinj (h.ordered.imp fun hab => ne_of_lt hab)
  refine hs.expand hnodup (fun y hy => ?_) (fun n => ?_) (fun y hy => List.mem_of_mem_filter hy)
    (hnodup.filter _) (fun y hy hlater n hn => ?_)
  · obtain ⟨n, -, rfl⟩ := List.mem_map.1 hy
    exact ⟨n, rfl⟩
  · rw [List.mem_map_of_injective hinj]
    exact h.mem n
  · -- What lies in something lies in a directory, and all directories are pending.
    obtain ⟨a, ha⟩ := hn
    exact hlater (List.mem_filter.2 ⟨hy, directoryAt_iff.2 (hw.above y n a ha)⟩)

theorem explore_outcome (hscheme : c.resolver.scheme = Path.volumeScheme) (fuel : Nat)
    {found pending : List (List String)} {paths : List Path}
    (hs : Survey (Tree.Occupied w.entries) [] found pending)
    (hdirs : ∀ x ∈ pending, directoryAt w x = true)
    (hpaths : List.Forall₂ (fun x p => c.resolver.resolve p = .ok (.ofNames x)) pending paths)
    (hfuel : w.volume.entries.length + pending.length ≤ fuel + found.length) :
    ∃ places statuses all, outcome (c.explore fuel paths) w = (.ok statuses, w) ∧
      List.Forall₂ (c.ShownAt w) places statuses ∧
      Survey (Tree.Occupied w.entries) [] all [] ∧ all.Perm (places ++ found) := by
  induction fuel generalizing found pending paths with
  | zero =>
    have hbound := places_bounded hs.nodup fun x hx => (hs.has x hx).1
    obtain rfl : pending = [] := List.length_eq_zero_iff.1 (by omega)
    cases hpaths
    exact ⟨[], [], found, by rw [explore]; rfl, .nil, hs, .refl _⟩
  | succ fuel ih =>
    cases hpaths with
    | nil => exact ⟨[], [], found, by rw [explore]; rfl, .nil, hs, .refl _⟩
    | @cons x p pending paths hp hpaths =>
      obtain ⟨⟨e, he, hdir⟩, hdirs⟩ :=
        (List.forall_mem_cons.1 hdirs).imp_left directoryAt_iff.1
      obtain ⟨names, statuses, hlist, hlists⟩ := list_outcome_directory hw hp he hdir
      have hshown : List.Forall₂ (c.ShownAt w) (names.map fun n => x ++ [n]) statuses :=
        List.forall₂_map_left_iff.2 hlists.statuses
      have hlater : List.Forall₂ (c.ShownAt w)
          ((names.map fun n => x ++ [n]).filter (directoryAt w))
          (statuses.filter Status.isDirectory) :=
        List.rel_filter (p := directoryAt w) (fun _ _ hy => ShownAt.kind hy) hshown
      have hbelow : List.Forall₂ (fun x p => c.resolver.resolve p = .ok (.ofNames x))
          ((names.map fun n => x ++ [n]).filter (directoryAt w))
          ((statuses.filter Status.isDirectory).map Status.path) := by
        refine List.forall₂_map_right_iff.2 (hlater.imp fun y s hy => ?_)
        obtain ⟨a, -, hs⟩ := hy
        rw [hs.path]
        exact resolve_label hscheme y
      obtain ⟨places, rest, all, hrest, hplaces, hall, hperm⟩ := ih (hlists.expand hw hs)
        (fun y hy => (List.mem_append.1 hy).elim (fun hy => (List.mem_filter.1 hy).2) (hdirs y))
        (List.rel_append hbelow hpaths) (by
          have hfilter := List.length_filter_le (directoryAt w) (names.map fun n => x ++ [n])
          simp only [List.length_append, List.length_cons] at hfuel ⊢
          omega)
      refine ⟨_, _, all, ?_, List.rel_append hshown hplaces, hall, ?_⟩
      · rw [explore, outcome_bind_ok hlist, outcome_bind_ok hrest]
        rfl
      · rw [List.append_assoc]
        exact hperm.trans (List.perm_append_comm_assoc _ _ _)

end Explore

/-- What a client of a volume in use lists. A directory shows what is in it; a status leads to what
it tells of, whatever the working directory, and also after its path was printed and read; and from the
root all entries are met, each once. -/
theorem listings_exact (hscheme : c.resolver.scheme = Path.volumeScheme)
    (hw : w.volume.Reachable) :
    (∀ p x d, c.resolver.resolve p = .ok (.ofNames x) → w.entries x = some d →
      d.content = .directory →
      ∃ names statuses, outcome (c.list p) w = (.ok statuses, w) ∧ c.Lists w x names statuses) ∧
    (∀ x e s, w.entries x = some e → c.Shows x e s →
      (∀ d : Client Run, d.resolver.scheme = Path.volumeScheme → d.authority = c.authority →
        d.Reaches w s.path x e s) ∧
      ('/' ∉ c.authority.toList → Path.parse s.path.display = .ok s.path)) ∧
    ∀ fuel, w.volume.entries.length ≤ fuel →
      ∃ places statuses, outcome (c.explore fuel [.root]) w = (.ok statuses, w) ∧
        List.Forall₂ (c.ShownAt w) places statuses ∧ places.Nodup ∧
        ∀ x, x ∈ places ↔ x ≠ [] ∧ Tree.Occupied w.entries x := by
  have hwell := hw.wellFormed
  refine ⟨fun p x d hp hd hdir => list_outcome_directory hwell hp hd hdir,
    fun x e s he hs => ⟨?_, ?_⟩, fun fuel hfuel => ?_⟩
  · intro d hd hauthority
    exact shown_reaches hwell hd hauthority he hs
  · intro hauthority
    rw [hs.path]
    exact parse_label hauthority (hwell.normal x he)
  · obtain ⟨r, hr, hdir⟩ := hwell.root
    have htop : directoryAt w [] = true := directoryAt_iff.2 ⟨r, hr, hdir⟩
    have hresolve : c.resolver.resolve .root = .ok (.ofNames []) :=
      Resolver.resolve_absolute rfl rfl
    have hstart : Survey (Tree.Occupied w.entries) [] [[]] [[]] := .start ⟨r, hr⟩
    obtain ⟨places, statuses, all, hend, hshown, hall, hperm⟩ := explore_outcome hwell hscheme fuel
      hstart (List.forall_mem_singleton.2 htop) (.cons hresolve .nil)
      (Nat.add_le_add_right hfuel 1)
    obtain ⟨honce, -, hroot⟩ := List.nodup_append.1 (hperm.nodup_iff.1 hall.nodup)
    have hmet : ∀ x, x ∈ places ∨ x = [] ↔ Tree.Occupied w.entries x := by
      intro x
      have hcomplete := hall.complete
        (fun x n _ ⟨a, ha⟩ => (hwell.above x n a ha).imp fun _ h => h.1) x
      rw [hperm.mem_iff, List.mem_append, List.mem_singleton] at hcomplete
      exact hcomplete.trans (and_iff_right List.nil_prefix)
    refine ⟨places, statuses, hend, hshown, honce, fun x => ?_⟩
    rw [← hmet x]
    have hne : x ∈ places → x ≠ [] := fun hx => hroot x hx [] (List.mem_singleton_self _)
    tauto

def lodged : Client Run := { visitor with resolver := ⟨Path.volumeScheme, .ofNames ["a"]⟩ }

/-- The root holds one directory and this one file; the path of its status leads to it also from
`/a`, and two listings from the root meet both. -/
theorem shelf_listed :
    (∃ names statuses, outcome (visitor.list .root) shelf = (.ok statuses, shelf) ∧
      visitor.Lists shelf [] names statuses) ∧
    (∃ s, visitor.Shows ["a", "f"] ⟨.file [1, 2, 3], 0o644, 0, 0⟩ s ∧
      lodged.Reaches shelf s.path ["a", "f"] ⟨.file [1, 2, 3], 0o644, 0, 0⟩ s ∧
      Path.parse s.path.display = .ok s.path) ∧
    ∃ places statuses, outcome (visitor.explore 3 [.root]) shelf = (.ok statuses, shelf) ∧
      List.Forall₂ (visitor.ShownAt shelf) places statuses ∧
      places.Nodup ∧ ["a"] ∈ places ∧ ["a", "f"] ∈ places := by
  obtain ⟨hlist, hreach, hexplore⟩ :=
    listings_exact (c := visitor) (w := shelf) rfl shelf_reachable
  have hfile : shelf.entries ["a", "f"] = some ⟨.file [1, 2, 3], 0o644, 0, 0⟩ := rfl
  have hshows := statusOf_shows (c := visitor) shelf_reachable.wellFormed hfile
  obtain ⟨hlodged, hparse⟩ := hreach _ _ _ hfile hshows
  obtain ⟨places, statuses, hend, hshown, honce, hmem⟩ := hexplore 3 (by decide)
  exact ⟨hlist .root [] _ rfl rfl rfl, ⟨_, hshows, hlodged lodged rfl rfl, hparse (by decide)⟩,
    places, statuses, hend, hshown, honce, (hmem _).2 ⟨by decide, _, rfl⟩,
    (hmem _).2 ⟨by decide, _, rfl⟩⟩

end Client

end VolumeFS
