import VolumeFS.Proofs.Client.Opening
import VolumeFS.Proofs.Client.Rename
import VolumeFS.Proofs.Contract.Served

/-!
# The contract of a client

A client ends each operation as the contract says, on every well-formed volume.
-/

set_option autoImplicit false

namespace VolumeFS

open Volume

def World.contents (w : World) : Tree.Contents := fun x => (w.entries x).map Entry.content

namespace Client

def label (c : Client Run) (p : Path) : Path := p.qualified Path.volumeScheme (some c.authority)

theorem contents_served : Tree.Serves (tree : Tree Run) Content.kind World.contents
    (fun w => w.volume.WellFormed) (fun x => ∀ n ∈ x, IsName n) :=
  tree_serves.seen Entry.content Content.kind fun _ => rfl

theorem contents_kind {x : List String} (hx : ∀ n ∈ x, IsName n) (w : World) :
    outcome ((tree : Tree Run).kind (.ofNames x)) w = (.ok ((w.contents x).map Content.kind), w) := by
  rw [tree_kind hx, World.contents, Option.map_map]
  rfl

theorem contents_some {w : World} {x : List String} {content : Content}
    (h : w.contents x = some content) : ∃ e, w.entries x = some e ∧ e.content = content :=
  Option.map_eq_some_iff.1 h

theorem contents_none {w : World} {x : List String} : w.contents x = none ↔ w.entries x = none :=
  Option.map_eq_none_iff

theorem contents_same {w w' : World} (h : w'.volume = w.volume) : w'.contents = w.contents := by
  funext x
  rw [World.contents, World.entries, h]
  rfl

theorem contents_put {w w' : World} {x : List String} {e : Entry}
    (h : w'.volume = w.volume.put ⟨x⟩ e) :
    w'.contents = Function.update w.contents x (some e.content) := by
  have hsame : w'.contents = ({ w with volume := w.volume.put ⟨x⟩ e } : World).contents :=
    contents_same h
  rw [hsame]
  funext y
  rw [World.contents, entries_put]
  by_cases hy : y = x
  · rw [hy, Function.update_self, Function.update_self]
    rfl
  · rw [Function.update_of_ne hy, Function.update_of_ne hy]
    rfl

variable {c : Client Run} {w : World}

section Status

theorem qualify_names (x : List String) : c.qualify (.ofNames x) = c.label (.ofNames x) := by
  unfold qualify
  rw [Resolver.resolve_absolute (p := .ofNames x) rfl rfl]
  rfl

theorem statusOf_unowned (x : List String) (e : Entry) :
    (c.statusOf (.ofNames x) e.stat).unowned = Operation.statusAt c.label x e.content := by
  obtain ⟨_ | data, mode, uid, gid⟩ := e
  · unfold statusOf Status.unowned
    rw [qualify_names]
    rfl
  · unfold statusOf Status.unowned
    rw [qualify_names]
    rfl

theorem statuses_outcome {x : List String} (hx : ∀ n ∈ x, IsName n) (names : List String)
    (hnames : ∀ n ∈ names, IsName n) :
    outcome (c.statuses (.ofNames x) names) w = (.ok (names.filterMap fun n =>
      (w.entries (x ++ [n])).map fun e => c.statusOf (.ofNames (x ++ [n])) e.stat), w) := by
  induction names with
  | nil => rfl
  | cons n names ih =>
    have hn := hnames n (by simp)
    have hchild : ∀ m ∈ x ++ [n], IsName m := by
      simpa [or_imp, forall_and] using ⟨hx, hn⟩
    rw [statuses, Path.ofNames_child x hn, outcome_bind_ok (outcome_stat _ w),
      outcome_bind_ok (ih fun m hm => hnames m (by simp [hm])), Path.ofNames_key hchild]
    have hstat : w.volume.stat? ⟨x ++ [n]⟩ = (w.entries (x ++ [n])).map Entry.stat := rfl
    rw [hstat, List.filterMap_cons]
    cases w.entries (x ++ [n]) <;> rfl

theorem listing (hw : w.volume.WellFormed) {x : List String} {e : Entry}
    (he : w.entries x = some e) (hdir : e.content = .directory) :
    ∃ names, w.volume.list ⟨x⟩ = .ok names ∧ Operation.Lists w.contents x names ∧
      ∀ n ∈ names, IsName n := by
  refine ⟨_, list_directory he hdir,
    ⟨Text.sortedNames_ordered _, hw.list_nodup x, fun n => mem_list.trans ?_⟩, fun n hn => ?_⟩
  · constructor
    · rintro ⟨a, ha⟩
      exact ⟨a.content, congrArg (Option.map Entry.content) ha⟩
    · rintro ⟨content, hcontent⟩
      obtain ⟨a, ha, -⟩ := contents_some hcontent
      exact ⟨a, ha⟩
  · obtain ⟨a, ha⟩ := mem_list.1 hn
    exact hw.name x n a ha

end Status

theorem renamed_contents {w w' : World} {source target : List String}
    (h : Renamed w.entries w'.entries source target) :
    w'.contents = Tree.moved w.contents source target := by
  funext y
  unfold Tree.moved
  split_ifs with ht hs
  · obtain ⟨z, rfl⟩ := ht
    have hshape := congrArg (Option.map Prod.fst) (h.moved z)
    rw [Option.map_map, Option.map_map] at hshape
    rw [List.drop_left]
    exact hshape
  · obtain ⟨z, rfl⟩ := hs
    exact contents_none.2 (h.gone z)
  · exact congrArg (Option.map Entry.content) (h.kept y hs ht)

abbrev Fulfils (c : Client Run) (op : Operation) (w : World) : Prop :=
  op.Fulfilled c.label c (fun w => w.volume.WellFormed) World.contents w

open Operation in
/-- A new file holds what is written to it, and only directories come to be besides. -/
theorem makeFile_filled (hw : w.volume.WellFormed) {x : List String} {n : String}
    (hnames : ∀ m ∈ x ++ [n], IsName m) (hfree : w.contents (x ++ [n]) = none)
    (hclear : Tree.Clear Content.kind w.contents (x ++ [n])) (options : CreateOptions)
    {data : List Byte} (hlen : data.length ≤ longest) :
    ∃ w', outcome (c.makeFile (.ofNames (x ++ [n])) options >>= fun s => fill s data) w =
        (.ok (UInt64.ofNat data.length), w') ∧ w'.volume.WellFormed ∧
      w'.contents = Function.update (Tree.made w.contents x) (x ++ [n]) (some (.file data)) := by
  obtain ⟨y, a, path, ⟨z, rfl⟩, ha, hfile, -⟩ | ⟨w₁, w₂, hmake, -, hmade, hw₂, mode, hv₂⟩ :=
    makeFile_outcome hw c hnames (contents_none.1 hfree) options
  · have hdir := hclear y (z ++ [n]) a.content (List.append_assoc y z [n]) (by simp)
      (congrArg (Option.map Entry.content) ha)
    cases hfile.symm.trans hdir
  · obtain ⟨uid, gid, hv⟩ : ∃ uid gid,
        w₂.volume = w₁.volume.put ⟨x ++ [n]⟩ ⟨.file [], mode, uid, gid⟩ := ⟨_, _, hv₂⟩
    have hnew : w₂.volume.find? ⟨x ++ [n]⟩ = some ⟨.file [], mode, uid, gid⟩ := by
      rw [hv, find?_put_self]
    have hfresh : Volume.Writer.AtEnd w₂ ⟨x ++ [n]⟩ mode uid gid ⟨⟨x ++ [n]⟩, 0⟩ w₂ [] :=
      ⟨rfl, rfl, (put_found hnew).symm, rfl⟩
    obtain ⟨w₃, hfill, hw₃, -⟩ := fill_outcome
      (WriteBuffer.fills (Volume.Writer.fills w₂ ⟨x ++ [n]⟩ mode uid gid))
      (WriteBuffer.holding_fresh hfresh (options.bufferSize.getD c.bufferSize)) hlen
      (c.qualify (.ofNames (x ++ [n])))
    have hput : w₃.volume = w₁.volume.put ⟨x ++ [n]⟩ ⟨.file data, mode, uid, gid⟩ := by
      rw [hw₃, hv, put_put]
    refine ⟨w₃, (outcome_bind_ok hmake _).trans hfill, ?_, ?_⟩
    · rw [hw₃]
      have hmode : mode ≤ 0o7777 := hw₂.mode _ _ hnew
      exact hw₂.put_same hnew (fun hdir => by cases hdir) hmode hlen
    · have hdirs : w₁.contents = Tree.made w.contents x :=
        (hmade.seen Entry.content fun e => (rfl : Content.kind e.content = e.kind)).contents
      rw [← hdirs]
      exact contents_put hput

/-- A move to a free place is done where that lies in a directory, and else changes nothing. -/
theorem moveTo_meets (hw : w.volume.WellFormed) {x z : List String} {n : String} {e : Entry}
    (he : w.entries x = some e) (htarget : ∀ m ∈ z ++ [n], IsName m)
    (hclear : Tree.Clear Content.kind w.contents (z ++ [n])) (hfree : w.contents (z ++ [n]) = none)
    (hout : ¬ x <+: z ++ [n]) :
    ∃ result w', outcome (c.moveTo (.ofNames x) (.ofNames (z ++ [n]))) w = (result, w') ∧
      w'.volume.WellFormed ∧ (Answer.shown (result.map fun _ => .done), w'.contents) =
        if w.contents z = none then (.error "NotFound", w.contents)
        else (.ok .done, Tree.moved w.contents x (z ++ [n])) := by
  by_cases hz : w.contents z = none
  · have hnone := contents_none.1 hz
    obtain ⟨fault, hend, hmissing⟩ := moveTo_orphan (x := x) c htarget
      (fun d hd => by rw [hnone] at hd; cases hd)
    obtain ⟨path, rfl⟩ := hmissing hnone (contents_none.1 hfree)
    refine ⟨_, w, hend, hw, ?_⟩
    rw [if_pos hz]
    rfl
  · obtain ⟨content, hcontent⟩ := Option.ne_none_iff_exists'.1 hz
    obtain ⟨d, hd, rfl⟩ := contents_some hcontent
    have hdir : d.content = .directory :=
      Content.kind_directory.1 (hclear z [n] _ rfl (by simp) hcontent)
    have hn := htarget n (by simp)
    obtain ⟨w', hend, hw', hmoved⟩ : ∃ w',
        outcome (c.moveTo (.ofNames x) (.ofNames (z ++ [n]))) w = (.ok (), w') ∧
        w'.volume.WellFormed ∧ Renamed w.entries w'.entries x (z ++ [n]) := by
      cases hv : w.volume.refusesRenames with
      | false => exact moveTo_natively hw he hn (contents_none.1 hfree) hd hdir hout hv
      | true =>
        obtain ⟨-, -, w', -, -, -, -, -, hmove⟩ :=
          moveTo_by_copy (c := c) hw he hn (contents_none.1 hfree) hd hdir hout hv
        exact ⟨w', hmove⟩
    refine ⟨_, w', hend, hw', ?_⟩
    rw [if_neg hz, renamed_contents hmoved]
    rfl

section Operations

open Operation

variable (hw : w.volume.WellFormed) {p q : Path}
  (hp : c.resolver.resolve p = .ok (.ofNames p.segments)) (hnames : ∀ n ∈ p.segments, IsName n)
  (hclear : Tree.Clear Content.kind w.contents p.segments)

include hw hp hnames hclear

theorem mkdirs_fulfils : c.Fulfils (.mkdirs p) w := by
  refine fulfilled_of (x := c.mkdirs p none) (f := fun _ => .done) rfl ?_
  have hend : outcome (c.mkdirs p none) w =
      outcome ((tree : Tree Run).mkdirs (.ofNames p.segments)) w := by
    unfold mkdirs
    rw [outcome_bind_ok (resolve_outcome hp w)]
    exact outcome_done _ w
  rw [hend]
  exact mkdirs_meets contents_served hw c.label hnames hclear

theorem delete_fulfils (hroot : p.segments ≠ []) (recursive : Bool) :
    c.Fulfils (.delete p recursive) w := by
  refine fulfilled_of (x := c.delete p recursive) (f := fun _ => .done) rfl ?_
  have hend : outcome (c.delete p recursive) w =
      outcome ((tree : Tree Run).remove (.ofNames p.segments) recursive) w := by
    unfold delete
    rw [outcome_bind_ok (resolve_outcome hp w)]
  rw [hend]
  exact delete_meets contents_served hw c.label hnames hclear hroot recursive

omit hclear in
theorem isThere_fulfils : c.Fulfils (.isThere p) w := by
  refine fulfilled_of (x := c.isThere p) (f := .truth) rfl
    ⟨.ok (w.entries p.segments).isSome, w, ?_, hw, ?_⟩
  · unfold isThere
    rw [outcome_bind_ok (resolve_outcome hp w), outcome_bind_ok (stat_outcome hnames),
      outcome_pure, Option.isSome_map]
  · dsimp only [Meets]
    rw [World.contents, Option.isSome_map]
    rfl

omit hclear in
theorem status_fulfils : c.Fulfils (.status p) w := by
  refine fulfilled_of (x := c.status p) (f := .status) rfl ?_
  have hstat := requireStat_outcome (w := w) hnames
  unfold Client.status
  rw [outcome_bind_ok (resolve_outcome hp w)]
  dsimp only [Meets, World.contents]
  cases he : w.entries p.segments with
  | none =>
    rw [he] at hstat
    exact ⟨_, w, outcome_bind_error hstat _, hw, rfl⟩
  | some e =>
    rw [he] at hstat
    refine ⟨_, w, outcome_bind_ok hstat _, hw, ?_⟩
    exact congrArg (fun s => (Except.ok (Answer.status s), w.contents)) (statusOf_unowned _ e)

omit hclear in
theorem list_fulfils : c.Fulfils (.list p) w := by
  refine fulfilled_of (x := c.list p) (f := .statuses) rfl ?_
  have hstat := requireStat_outcome (w := w) hnames
  unfold Client.list
  rw [outcome_bind_ok (resolve_outcome hp w)]
  dsimp only [Meets]
  cases he : w.entries p.segments with
  | none =>
    rw [he] at hstat
    rw [contents_none.2 he]
    exact ⟨_, w, outcome_bind_error hstat _, hw, rfl⟩
  | some e =>
    rw [he] at hstat
    have hcontent : w.contents p.segments = some e.content :=
      congrArg (Option.map Entry.content) he
    rw [hcontent, outcome_bind_ok hstat]
    cases hc : e.content with
    | file data =>
      have hst : e.stat.isDirectory = false := by simp [Entry.stat, hc, Content.isDirectory]
      refine ⟨.ok [c.statusOf (.ofNames p.segments) e.stat], w, ?_, hw, ?_⟩
      · rw [hst]
        rfl
      · have hstatus := statusOf_unowned (c := c) p.segments e
        rw [hc] at hstatus
        exact congrArg (fun s => (Except.ok (Answer.statuses [s]), w.contents)) hstatus
    | directory =>
      have hst : e.stat.isDirectory = true := by simp [Entry.stat, hc, Content.isDirectory]
      obtain ⟨names, hlist, hall, hgood⟩ := listing hw he hc
      have hnamed : outcome (VolumeAccess.list (key (.ofNames p.segments))) w = (.ok names, w) := by
        rw [Path.ofNames_key hnames, outcome_list, hlist]
      have hstatuses := statuses_outcome (c := c) (w := w) hnames names hgood
      refine ⟨.ok (List.mergeSort (names.filterMap fun n => (w.entries (p.segments ++ [n])).map
        fun e => c.statusOf (.ofNames (p.segments ++ [n])) e.stat) fun a b => a.path.le b.path),
        w, ?_, hw, names, hall, ?_⟩
      · rw [hst]
        simp only [Bool.not_true, Bool.false_eq_true, if_false]
        rw [outcome_bind_ok hnamed, outcome_bind_ok hstatuses]
        rfl
      · refine congrArg (·, w.contents) (shown_statuses ?_)
        rw [List.map_filterMap]
        refine congrArg (List.filterMap · names) (funext fun n => ?_)
        rw [World.contents, Option.map_map, Option.map_map]
        exact congrArg (Option.map · _) (funext fun a => statusOf_unowned _ a)

omit hclear in
theorem read_fulfils {size : Nat} (hsize : 0 < size) : c.Fulfils (.read p size) w := by
  have hopened := openFile_outcome (w := w) hp hnames
  rw [qualify_names] at hopened
  refine fulfilled_of (x := c.openFile p >>= drainFrom size (longest + 1)) (f := .bytes)
    (bind_assoc _ _ _).symm ?_
  dsimp only [Meets, World.contents]
  cases hc : (w.entries p.segments).map Entry.content with
  | none =>
    rw [hc] at hopened
    exact ⟨_, w, outcome_bind_error hopened _, hw, rfl⟩
  | some content =>
    rw [hc] at hopened
    cases content with
    | directory => exact ⟨_, w, outcome_bind_error hopened _, hw, rfl⟩
    | file data =>
      obtain ⟨e, he, hcontent⟩ := contents_some hc
      have hlen : data.length ≤ longest := by
        have hbound := hw.length _ e he
        rwa [hcontent] at hbound
      have hleft : Volume.Reader.Left ⟨.ofBytes data⟩ w data := ⟨Nat.zero_le _, hlen, rfl⟩
      obtain ⟨w', hdrain, hsame⟩ := drainFrom_outcome (s := .start
        (.ofCapacity c.bufferSize ⟨.ofBytes data⟩) .native (c.label (.ofNames p.segments)))
        (ReadBuffer.feeds Volume.Reader.feeds) hsize (longest + 1) (Nat.lt_succ_of_le hlen)
        (ReadBuffer.behind_fresh hleft c.bufferSize)
      refine ⟨.ok data, w', (outcome_bind_ok hopened _).trans hdrain, ?_, ?_⟩
      · rwa [hsame.volume]
      · rw [contents_same hsame.volume]
        rfl

theorem write_fulfils (overwrite : Bool) (bufferSize : Option Nat) {data : List Byte}
    (hlen : data.length ≤ longest) : c.Fulfils (.write p overwrite bufferSize data) w := by
  refine fulfilled_of
    (x := c.create p ⟨overwrite, bufferSize, none⟩ >>= fun s => fill s data) (f := .written)
    (bind_assoc _ _ _).symm ?_
  have hcleared := clear_outcome hw hnames overwrite
  unfold Client.create
  rw [bind_assoc, outcome_bind_ok (resolve_outcome hp w), bind_assoc]
  dsimp only [Meets]
  generalize p.segments = x at *
  cases hr : outcome (clear (m := Run) (.ofNames x) overwrite) w with
  | mk result w₁ =>
    rw [hr] at hcleared
    dsimp only at hcleared
    cases hcleared with
    | directory he hc =>
      have hdir : w.contents x = some .directory := by
        rw [World.contents, he, Option.map_some, hc]
      rw [if_pos hdir]
      exact ⟨_, w, outcome_bind_error hr _, hw, rfl⟩
    | @kept e old he hc hover =>
      have hfile : w.contents x = some (.file old) := by
        rw [World.contents, he, Option.map_some, hc]
      rw [if_neg (by rw [hfile]; simp), if_pos ⟨by rw [hfile]; simp, hover⟩]
      exact ⟨_, w, outcome_bind_error hr _, hw, rfl⟩
    | free hfree =>
      obtain ⟨x, n, rfl⟩ := named_of_free hw hfree
      have hnone := contents_none.2 hfree
      obtain ⟨w', hend, hw', hl'⟩ := makeFile_filled (c := c) hw hnames hnone hclear _ hlen
      refine ⟨_, w', (outcome_bind_ok hr _).trans hend, hw', ?_⟩
      rw [if_neg (by rw [hnone]; simp), if_neg (fun h => h.1 hnone), List.dropLast_concat, hl']
      rfl
    | @replaced e old _ he hc hover hw₁ hentries =>
      have hfile : w.contents x = some (.file old) := by
        rw [World.contents, he, Option.map_some, hc]
      obtain ⟨x, n, rfl⟩ := named_of_file hw he hc
      have hcontents : w₁.contents = Function.update w.contents (x ++ [n]) none := by
        change Option.map Entry.content ∘ w₁.entries = _
        rw [hentries, Function.comp_update]
        rfl
      have hnone : w₁.contents (x ++ [n]) = none := by rw [hcontents, Function.update_self]
      have hclear₁ : Tree.Clear Content.kind w₁.contents (x ++ [n]) := by
        intro y z a hyz hz ha
        rw [hcontents, Function.update_of_ne (fun hy => hz (by simpa [hy] using hyz))] at ha
        exact hclear y z a hyz hz ha
      obtain ⟨w', hend, hw', hl'⟩ := makeFile_filled (c := c) hw₁ hnames hnone hclear₁ _ hlen
      refine ⟨_, w', (outcome_bind_ok hr _).trans hend, hw', ?_⟩
      rw [if_neg (by rw [hfile]; simp), if_neg (fun h => by simp [hover] at h),
        List.dropLast_concat, hl', hcontents, update_made]
      rfl

omit hclear in
theorem rename_fulfils (hq : c.resolver.resolve q = .ok (.ofNames q.segments))
    (hqnames : ∀ n ∈ q.segments, IsName n)
    (hqclear : Tree.Clear Content.kind w.contents q.segments) (hroot : p.segments ≠ [])
    (hbelow : w.contents p.segments = some .directory → p.segments <+: target w.contents p q →
      target w.contents p q = p.segments) : c.Fulfils (.rename p q) w := by
  refine fulfilled_of (x := c.rename p q) (f := fun _ => .done) rfl ?_
  have hstat := requireStat_outcome (w := w) hnames
  unfold Client.rename
  rw [outcome_bind_ok (resolve_outcome hp w), outcome_bind_ok (resolve_outcome hq w)]
  cases he : w.entries p.segments with
  | none =>
    rw [he] at hstat
    refine ⟨_, w, outcome_bind_error hstat _, hw, ?_⟩
    dsimp only [Meets]
    rw [if_pos (contents_none.2 he)]
    rfl
  | some e =>
    rw [he] at hstat
    rw [outcome_bind_ok hstat]
    have hthere : w.contents p.segments = some e.content := congrArg (Option.map Entry.content) he
    have htarget : ∀ m ∈ target w.contents p q, IsName m := by
      rcases target_cases (l := w.contents) (p := p) (q := q) with hy | ⟨n, hn, hy, -⟩
      · rwa [hy]
      · rw [hy]
        simpa [or_imp, forall_and] using ⟨hqnames, hnames n hn⟩
    refine rename_meets hw c.label hroot hnames hthere (fun y hy => contents_kind ?_ w)
      (c.moveTo (.ofNames p.segments)) (fun hne hfree => ?_)
    · rcases hy with rfl | rfl
      · exact hqnames
      · exact htarget
    have hout := target_outside hqclear hthere hne hbelow
    have hyclear := target_clear (p := p) hqclear
    generalize target w.contents p q = y at *
    obtain ⟨z, n, rfl⟩ := named_of_free hw (contents_none.1 hfree)
    rw [List.dropLast_concat]
    exact moveTo_meets hw he htarget hyclear hfree hout

end Operations

section Whole

open Operation

variable {m : Type → Type} {t : Mount m} {op : Operation}

/-- The client ends each allowed operation on its own paths as the contract says. -/
theorem fulfils (hw : w.volume.WellFormed) (hop : op.Allowed t w.contents)
    (hours : ∀ p ∈ op.paths, c.resolver.accepts p = true) : c.Fulfils op w := by
  have hres : ∀ p ∈ op.paths, c.resolver.resolve p = .ok (.ofNames p.segments) :=
    fun p hp => Resolver.resolve_absolute (hop.1 p hp).absolute (hours p hp)
  obtain ⟨husable, hop⟩ := hop
  cases op with
  | mkdirs p =>
    have hp := husable p (by simp [paths])
    exact mkdirs_fulfils hw (hres p (by simp [paths])) hp.names hp.clear
  | write p overwrite bufferSize data =>
    have hp := husable p (by simp [paths])
    exact write_fulfils hw (hres p (by simp [paths])) hp.names hp.clear overwrite bufferSize hop
  | delete p recursive =>
    have hp := husable p (by simp [paths])
    exact delete_fulfils hw (hres p (by simp [paths])) hp.names hp.clear hop recursive
  | rename p q =>
    have hp := husable p (by simp [paths])
    have hq := husable q (by simp [paths])
    exact rename_fulfils hw (hres p (by simp [paths])) hp.names (hres q (by simp [paths])) hq.names
      hq.clear hop.1 hop.2
  | isThere p => exact isThere_fulfils hw (hres p (by simp [paths])) (husable p (by simp [paths])).names
  | status p => exact status_fulfils hw (hres p (by simp [paths])) (husable p (by simp [paths])).names
  | list p => exact list_fulfils hw (hres p (by simp [paths])) (husable p (by simp [paths])).names
  | read p size =>
    exact read_fulfils hw (hres p (by simp [paths])) (husable p (by simp [paths])).names hop

/-- A path of another scheme is refused before anything is done. -/
theorem foreign (hother : ¬ ∀ p ∈ op.paths, c.resolver.accepts p = true)
    (habs : ∀ p ∈ op.paths, p.absolute = true) (w : World) :
    ∃ reason, outcome (op.run c) w = (.error (.invalidPath reason), w) := by
  refine refused_of c.resolve (fun p => c.resolver.accepts p = true)
    (fun p hp hours => ⟨_, resolve_outcome (Resolver.resolve_absolute (habs p hp) hours) w⟩)
    (fun p hp => ?_) (fun p fault hp hfault => ?_) (fun p q p' fault hop hp hfault => ?_) hother
  · obtain ⟨reason, hreason⟩ := Resolver.resolve_foreign hp
    exact ⟨reason, by rw [resolve, hreason, outcome_of_except]⟩
  · cases op with
    | _ p =>
      cases hp
      exact outcome_bind_error (outcome_bind_error hfault _) _
  · subst hop
    exact outcome_bind_error ((outcome_bind_ok hp _).trans (outcome_bind_error hfault _)) _

end Whole

end Client

end VolumeFS
