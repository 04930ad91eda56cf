import VolumeFS.Proofs.Contract.Served
import VolumeFS.Proofs.Mount.Files
import VolumeFS.Proofs.Mount.Logical

/-!
# The contract of a mount

A mount that is mounted and does not read quickly ends each operation as the
contract says, on every disk whose mounted directory it holds. Only a rename
needs room: where it leads, the system has to take all paths.
-/

set_option autoImplicit false

namespace VolumeFS

open Disk

namespace Mount

variable {t : Mount Run} {base : Place} {w : World}

theorem enter_outcome (hphase : t.phase = .mounted) {p : Path} (habs : p.absolute = true)
    (hours : t.resolver.accepts p = true) (hout : p.startsWith t.directoryPath = false)
    (w : World) : outcome (t.enter p) w = (.ok (.ofNames p.segments), w) := by
  have hres := Resolver.resolve_absolute habs hours
  have hbelow : (Path.ofNames p.segments).below? t.directoryPath = none := by
    have hstarts : (Path.ofNames p.segments).startsWith t.directoryPath = false := by
      rw [← hout, Path.startsWith, Path.startsWith, habs]
      rfl
    rw [Path.below?, if_neg (by simp [hstarts])]
  have hlogical : t.logical p = .ok (.ofNames p.segments) := by
    unfold logical
    rw [hres]
    change (if t.directory = "" then _ else _) = _
    rw [hbelow]
    split_ifs <;> rfl
  exact enter_seen hphase hlogical w

section Status

variable (h : t.Holds base w.disk) {x : List String} (hx : t.Fits x)
  (hclear : Tree.Clear Volume.Content.kind (w.disk.contents base) x)

include h hx hclear

theorem metadata_outcome : outcome (t.metadata (.ofNames x)) w =
    (match w.disk.contents base x with
      | some (.file data) => .ok ⟨false, UInt64.ofNat data.length⟩
      | some .directory => .ok ⟨true, 0⟩
      | none => .error (.notFound (Path.ofNames x).text), w) := by
  change outcome (naming _ (Disk.look _)) w = _
  rw [outcome_look, metadata_contents h hx hclear]
  rcases w.disk.contents base x with _ | _ | _ <;> rfl

theorem metadata_found {content : Volume.Content} (hc : w.disk.contents base x = some content) :
    ∃ found, outcome (t.metadata (.ofNames x)) w = (.ok found, w) ∧
      found.isDirectory = content.isDirectory ∧
      t.statusOf (.ofNames x) found = Operation.statusAt t.label x content := by
  have hend := metadata_outcome h hx hclear
  rw [hc] at hend
  cases content with
  | directory => exact ⟨_, hend, rfl, rfl⟩
  | file data => exact ⟨_, hend, rfl, rfl⟩

end Status

theorem statuses_outcome (h : t.Holds base w.disk) {x : List String} (names : List String)
    (hnames : ∀ n ∈ names, t.Fits (x ++ [n]) ∧
      Tree.Clear Volume.Content.kind (w.disk.contents base) (x ++ [n])) :
    outcome (t.statuses (.ofNames x) names) w = (.ok (names.filterMap fun n =>
      (w.disk.contents base (x ++ [n])).map (Operation.statusAt t.label (x ++ [n]))), w) := by
  induction names with
  | nil => rfl
  | cons n names ih =>
    obtain ⟨hfits, hclear⟩ := hnames n (by simp)
    have ih := ih fun m hm => hnames m (by simp [hm])
    have hend := metadata_outcome h hfits hclear
    rw [statuses, Path.ofNames_child x (fits_above hfits).2.name,
      outcome_bind_ok (outcome_attempt _ w), List.filterMap_cons]
    cases hc : w.disk.contents base (x ++ [n]) with
    | none =>
      rw [hc] at hend
      rw [hend]
      exact ih
    | some content =>
      obtain ⟨found, hfound, -, hstatus⟩ := metadata_found h hfits hclear hc
      rw [hfound]
      dsimp only
      rw [outcome_bind_ok ih, hstatus]
      rfl

theorem listing (h : t.Holds base w.disk) {x : List String}
    (hx : w.disk.contents base x = some .directory) :
    ∃ names, outcome ((t.tree : Tree Run).childNames (.ofNames x)) w = (.ok names, w) ∧
      Operation.Lists (w.disk.contents base) x names ∧ ∀ n ∈ names, t.Fits (x ++ [n]) ∧
        Tree.Clear Volume.Content.kind (w.disk.contents base) (x ++ [n]) := by
  have hserved := contents_served t base
  obtain ⟨mode, hdir⟩ := contents_directory hx
  have hthere : ∀ n, n ∈ w.disk.namesIn (base ++ x) ↔
      Tree.Occupied (w.disk.contents base) (x ++ [n]) := by
    intro n
    rw [mem_namesIn, ← under_child]
    constructor
    · rintro ⟨a, ha⟩
      exact ⟨held w.disk.bodies a, by rw [Disk.contents, ha, Option.map_some]⟩
    · rintro ⟨content, hcontent⟩
      obtain ⟨a, ha, -⟩ := Option.map_eq_some_iff.1 hcontent
      exact ⟨a, ha⟩
  refine ⟨_, childNames_below h hdir,
    ⟨Text.sortedNames_ordered _, namesIn_nodup h.plain.unique _, hthere⟩, fun n hn => ?_⟩
  obtain ⟨content, hcontent⟩ := (hthere n).1 hn
  exact ⟨hserved.fits w _ content h hcontent, hserved.clear_found h hcontent⟩

/-- A place is free for a new file unless a directory is there, or a file that is to be kept. -/
theorem checkFree_cases (h : t.Holds base w.disk) {x : List String} (hx : t.Fits x)
    (hclear : Tree.Clear Volume.Content.kind (w.disk.contents base) x) (overwrite : Bool) :
    (w.disk.contents base x = some .directory ∧ outcome (t.checkFree (.ofNames x) overwrite) w =
        (.error (.isADirectory (Path.ofNames x).text), w)) ∨
    w.disk.contents base x ≠ some .directory ∧
      ((w.disk.contents base x ≠ none ∧ overwrite = false) ∧
          outcome (t.checkFree (.ofNames x) overwrite) w =
            (.error (.alreadyExists (Path.ofNames x).text), w) ∨
        ¬ (w.disk.contents base x ≠ none ∧ overwrite = false) ∧
          outcome (t.checkFree (.ofNames x) overwrite) w = (.ok (), w)) := by
  have hkind : outcome (t.kind (.ofNames x)) w = _ := (contents_served t base).kind w x h hx hclear
  unfold checkFree
  rw [outcome_bind_ok hkind]
  rcases w.disk.contents base x with _ | data | _
  · exact .inr ⟨by simp, .inr ⟨by simp, rfl⟩⟩
  · cases overwrite with
    | false => exact .inr ⟨by simp, .inl ⟨by simp, rfl⟩⟩
    | true => exact .inr ⟨by simp, .inr ⟨by simp, rfl⟩⟩
  · exact .inl ⟨rfl, rfl⟩

open Operation in
/-- A file that was opened for writing holds what is written to it. -/
theorem openWriter_filled (h : t.Holds base w.disk) {x : List String} {n : String}
    (hfits : t.Fits (x ++ [n])) (hd : w.disk.contents base x = some .directory)
    (hfree : w.disk.contents base (x ++ [n]) ≠ some .directory) (capacity : Nat)
    (name : String) (path : Path) {data : List Byte} (hlen : data.length ≤ Volume.longest) :
    ∃ w', outcome (do
        let writer ← naming name (DiskAccess.openWriter (t.localPath (.ofNames (x ++ [n]))))
        fill (.start (WriteBuffer.ofCapacity capacity writer) path) data) w =
          (.ok (UInt64.ofNat data.length), w') ∧ t.Holds base w'.disk ∧
      w'.disk.contents base =
        Function.update (w.disk.contents base) (x ++ [n]) (some (.file data)) := by
  obtain ⟨number, d, hopen, hd', hfile, hempty, hcontents⟩ := openWriter_below h hfits hd hfree
  have hopened : outcome (naming name (DiskAccess.openWriter (t.localPath (.ofNames (x ++ [n]))) :
      ExceptT IoError Run Disk.Writer)) w = (.ok ⟨⟨some number, 0⟩⟩, { w with disk := d }) := by
    change outcome (naming _ (Disk.act _)) w = _
    rw [outcome_act, hopen]
    rfl
  have hfresh : Disk.Writer.AtEnd { w with disk := d } number ⟨⟨some number, 0⟩⟩
      { w with disk := d } [] := ⟨rfl, rfl, (refilled_same hempty).symm, rfl⟩
  obtain ⟨w', hfill, hw', -⟩ := fill_outcome
    (WriteBuffer.fills (Disk.Writer.fills { w with disk := d } number))
    (WriteBuffer.holding_fresh hfresh capacity) hlen path
  obtain ⟨hholds, hfilled⟩ := hd'.refilled hfile data
  refine ⟨w', (outcome_bind_ok hopened _).trans hfill, ?_, ?_⟩
  · rwa [hw']
  · rw [hw']
    dsimp only
    rw [hfilled, hcontents, Function.update_idem]

abbrev Fulfils (t : Mount Run) (base : Place) (op : Operation) (w : World) : Prop :=
  op.Fulfilled t.label t (fun w => t.Holds base w.disk) (fun w => w.disk.contents base) w

section Operations

open Operation

variable (h : t.Holds base w.disk) {p q : Path}
  (hp : outcome (t.enter p) w = (.ok (.ofNames p.segments), w)) (hfits : t.Fits p.segments)
  (hclear : Tree.Clear Volume.Content.kind (w.disk.contents base) p.segments)

include h hp hfits hclear

theorem mkdirs_fulfils : t.Fulfils base (.mkdirs p) w := by
  refine fulfilled_of (x := t.mkdirs p none) (f := fun _ => .done) rfl ?_
  have hend : outcome (t.mkdirs p none) w = outcome (t.tree.mkdirs (.ofNames p.segments)) w := by
    unfold mkdirs
    rw [outcome_bind_ok hp]
    exact outcome_done _ w
  rw [hend]
  exact mkdirs_meets (contents_served t base) h t.label hfits hclear

theorem delete_fulfils (hroot : p.segments ≠ []) (recursive : Bool) :
    t.Fulfils base (.delete p recursive) w := by
  refine fulfilled_of (x := t.delete p recursive) (f := fun _ => .done) rfl ?_
  have hend : outcome (t.delete p recursive) w =
      outcome (t.tree.remove (.ofNames p.segments) recursive) w := by
    unfold delete
    rw [outcome_bind_ok hp]
  rw [hend]
  exact delete_meets (contents_served t base) h t.label hfits hclear hroot recursive

theorem isThere_fulfils : t.Fulfils base (.isThere p) w := by
  obtain ⟨found, hkind, hmeets⟩ := isThere_meets (contents_served t base) h t.label hfits hclear
  refine fulfilled_of (x := t.isThere p) (f := .truth) rfl ⟨.ok found.isSome, w, ?_, h, hmeets⟩
  unfold isThere
  rw [outcome_bind_ok hp]
  exact outcome_bind_ok hkind _

theorem status_fulfils : t.Fulfils base (.status p) w := by
  refine fulfilled_of (x := t.status p) (f := .status) rfl ?_
  have hend := metadata_outcome h hfits hclear
  unfold Mount.status
  rw [outcome_bind_ok hp]
  dsimp only [Meets]
  cases hc : w.disk.contents base p.segments with
  | none =>
    rw [hc] at hend
    exact ⟨_, w, outcome_bind_error hend _, h, rfl⟩
  | some content =>
    obtain ⟨found, hfound, -, hstatus⟩ := metadata_found h hfits hclear hc
    refine ⟨_, w, outcome_bind_ok hfound _, h, ?_⟩
    rw [hstatus]
    cases content <;> rfl

theorem list_fulfils : t.Fulfils base (.list p) w := by
  refine fulfilled_of (x := t.list p) (f := .statuses) rfl ?_
  have hend := metadata_outcome h hfits hclear
  unfold Mount.list
  rw [outcome_bind_ok hp]
  dsimp only [Meets]
  cases hc : w.disk.contents base p.segments with
  | none =>
    rw [hc] at hend
    exact ⟨_, w, outcome_bind_error hend _, h, rfl⟩
  | some content =>
    obtain ⟨found, hfound, hkind, hstatus⟩ := metadata_found h hfits hclear hc
    rw [outcome_bind_ok hfound, hkind]
    cases content with
    | file data =>
      refine ⟨_, w, rfl, h, ?_⟩
      rw [hstatus]
      rfl
    | directory =>
      obtain ⟨names, hlist, hall, hgood⟩ := listing h hc
      refine ⟨.ok (statusesIn t.label (w.disk.contents base) p.segments names), w, ?_, h, names,
        hall, congrArg (·, w.disk.contents base) (shown_statuses ?_)⟩
      · rw [if_neg (by simp [Volume.Content.isDirectory]), outcome_bind_ok hlist,
          outcome_bind_ok (statuses_outcome h names hgood)]
        rfl
      · rw [List.map_filterMap]
        refine congrArg (List.filterMap · names) (funext fun n => ?_)
        rcases w.disk.contents base (p.segments ++ [n]) with _ | _ | _ <;> rfl

theorem openFile_outcome (hquick : t.config.quickRead = false) :
    ∃ path, outcome (t.openFile p) w =
      (match w.disk.under base p.segments with
        | some (.file number) => .ok (.start (.ofCapacity t.config.tunedBufferSize
          ⟨⟨some number, 0⟩⟩) .mount path)
        | some _ => .error (.isADirectory (Path.ofNames p.segments).text)
        | none => .error (.notFound (Path.ofNames p.segments).text), w) := by
  refine ⟨t.qualify (.ofNames p.segments), ?_⟩
  have hfound := metadata_below h hfits (clear_under hclear)
  have hmetadata : outcome (t.metadata (.ofNames p.segments)) w =
      ((w.disk.metadata (t.localPath (.ofNames p.segments))).mapError
        (Fault.ofIo · (Path.ofNames p.segments).text), w) := outcome_look _ _ _
  rw [hfound] at hmetadata
  unfold Mount.openFile
  rw [outcome_bind_ok hp]
  cases ha : w.disk.under base p.segments with
  | none =>
    rw [ha] at hmetadata
    exact outcome_bind_error hmetadata _
  | some a =>
    rw [ha] at hmetadata
    cases a with
    | directory mode => exact outcome_bind_ok hmetadata _
    | link target => exact outcome_bind_ok hmetadata _
    | file number =>
      have hsource : ∀ length, outcome (t.quickSource (.ofNames p.segments) length) w =
          (.ok none, w) := by
        intro length
        unfold quickSource
        rw [hquick]
        rfl
      have hopen : outcome (naming (Path.ofNames p.segments).text
          (DiskAccess.openReader (t.localPath (.ofNames p.segments)) : ExceptT IoError Run _)) w =
          (.ok ⟨⟨some number, 0⟩⟩, w) := by
        change outcome (naming _ (Disk.look _)) w = _
        rw [outcome_look, Disk.openReader, find_below h hfits (clear_under hclear), ha]
        rfl
      rw [outcome_bind_ok hmetadata, if_neg (by simp), outcome_bind_ok (hsource _)]
      exact outcome_bind_ok hopen _

/-- What is read is what the file holds, as long as that is no longer than a file can be. -/
theorem read_fulfils (hquick : t.config.quickRead = false)
    (hlen : ∀ data, w.disk.contents base p.segments = some (.file data) →
      data.length ≤ Volume.longest) {size : Nat} (hsize : 0 < size) :
    t.Fulfils base (.read p size) w := by
  obtain ⟨path, hopened⟩ := openFile_outcome h hp hfits hclear hquick
  refine fulfilled_of (x := t.openFile p >>= drainFrom size (Volume.longest + 1)) (f := .bytes)
    (bind_assoc _ _ _).symm ?_
  dsimp only [Meets]
  cases hc : w.disk.contents base p.segments with
  | none =>
    rw [Disk.contents_none.1 hc] at hopened
    exact ⟨_, w, outcome_bind_error hopened _, h, rfl⟩
  | some content =>
    cases content with
    | directory =>
      obtain ⟨mode, hdir⟩ := contents_directory hc
      rw [hdir] at hopened
      exact ⟨_, w, outcome_bind_error hopened _, h, rfl⟩
    | file data =>
      obtain ⟨number, hfile, hdata⟩ := contents_file h hc
      rw [hfile] at hopened
      have hlen := hlen data hc
      have hleft : Disk.Reader.Left ⟨⟨some number, 0⟩⟩ w data := by
        refine ⟨number, rfl, Nat.zero_le _, ?_, ?_⟩
        · rwa [hdata]
        · rw [hdata]
          rfl
      obtain ⟨w', hdrain, hsame⟩ := drainFrom_outcome (s := .start
        (.ofCapacity t.config.tunedBufferSize ⟨⟨some number, 0⟩⟩) .mount path)
        (ReadBuffer.feeds Disk.Reader.feeds) hsize (Volume.longest + 1) (Nat.lt_succ_of_le hlen)
        (ReadBuffer.behind_fresh hleft _)
      refine ⟨.ok data, w', (outcome_bind_ok hopened _).trans hdrain, ?_, ?_⟩
      · rwa [hsame.disk]
      · rw [hsame.disk]
        rfl

theorem write_fulfils (overwrite : Bool) (bufferSize : Option Nat) {data : List Byte}
    (hlen : data.length ≤ Volume.longest) :
    t.Fulfils base (.write p overwrite bufferSize data) w := by
  refine fulfilled_of
    (x := t.create p ⟨overwrite, bufferSize, none⟩ >>= fun s => fill s data) (f := .written)
    (bind_assoc _ _ _).symm ?_
  have hcheck := checkFree_cases h hfits hclear overwrite
  have hserved := contents_served t base
  unfold Mount.create
  rw [bind_assoc, outcome_bind_ok hp, bind_assoc]
  dsimp only [Meets]
  generalize p.segments = x at *
  obtain ⟨hdir, hrefused⟩ | ⟨hdir, ⟨hkeep, hrefused⟩ | ⟨hkeep, hfree⟩⟩ := hcheck
  · rw [if_pos hdir]
    exact ⟨_, w, outcome_bind_error hrefused _, h, rfl⟩
  · rw [if_neg hdir, if_pos hkeep]
    exact ⟨_, w, outcome_bind_error hrefused _, h, rfl⟩
  · rw [if_neg hdir, if_neg hkeep]
    rcases List.eq_nil_or_concat x with rfl | ⟨x, n, rfl⟩
    · obtain ⟨d, hd, hkind⟩ := hserved.root w h
      rw [Volume.Content.kind_directory.1 hkind] at hd
      exact absurd hd hdir
    rw [List.concat_eq_append] at *
    obtain ⟨w₁, hensure, hw₁, hmade⟩ := hserved.ensureParent_contents h hfits hclear
    have hparent : w₁.disk.contents base x = some .directory := by rw [hmade, Tree.made_here]
    have hstill : w₁.disk.contents base (x ++ [n]) = w.disk.contents base (x ++ [n]) := by
      rw [hmade, Tree.made_child]
    obtain ⟨w', hfill, hw', hl'⟩ := openWriter_filled hw₁ hfits hparent (by rwa [hstill])
      (bufferSize.getD t.config.tunedBufferSize) (Path.ofNames (x ++ [n])).text
      (t.qualify (.ofNames (x ++ [n]))) hlen
    refine ⟨.ok (UInt64.ofNat data.length), w', ?_, hw', ?_⟩
    · rw [outcome_bind_ok hfree, bind_assoc, outcome_bind_ok hensure, bind_assoc]
      exact hfill
    · rw [List.dropLast_concat, hl', hmade]
      rfl

omit hp hfits hclear in
/-- The system takes the path that a rename leads to. -/
theorem target_fits (hqfits : t.Fits q.segments) (hthere : w.disk.contents base p.segments ≠ none)
    (hroom : Roomy t (w.disk.contents base) (.rename p q)) :
    t.Fits (target (w.disk.contents base) p q) := by
  rcases target_cases (l := w.disk.contents base) (p := p) (q := q) with hy | ⟨n, -, hy, hq⟩
  · rwa [hy]
  by_cases hfree : w.disk.contents base (target (w.disk.contents base) p q) = none
  · obtain ⟨content, hcontent⟩ := Option.ne_none_iff_exists'.1 hthere
    have hwhole := hroom hfree (by rwa [hy, List.dropLast_concat]) []
      ⟨content, by rwa [List.append_nil]⟩
    rwa [List.append_nil] at hwhole
  · rw [Disk.contents_none] at hfree
    obtain ⟨a, ha⟩ := Option.ne_none_iff_exists'.1 hfree
    exact h.fits _ a ha

theorem rename_fulfils (hq : outcome (t.enter q) w = (.ok (.ofNames q.segments), w))
    (hqfits : t.Fits q.segments)
    (hqclear : Tree.Clear Volume.Content.kind (w.disk.contents base) q.segments)
    (hroot : p.segments ≠ [])
    (hbelow : w.disk.contents base p.segments = some .directory →
      p.segments <+: target (w.disk.contents base) p q →
      target (w.disk.contents base) p q = p.segments)
    (hroom : Roomy t (w.disk.contents base) (.rename p q)) : t.Fulfils base (.rename p q) w := by
  refine fulfilled_of (x := t.rename p q) (f := fun _ => .done) rfl ?_
  have hserved := contents_served t base
  have hkind : outcome (t.kind (.ofNames p.segments)) w = _ := hserved.kind w _ h hfits hclear
  unfold Mount.rename
  rw [outcome_bind_ok hp, outcome_bind_ok hq, outcome_bind_ok hkind]
  cases hthere : w.disk.contents base p.segments with
  | none =>
    refine ⟨_, w, rfl, h, ?_⟩
    dsimp only [Meets]
    rw [if_pos hthere]
    rfl
  | some content =>
    have hyfits := target_fits h hqfits (by rw [hthere]; simp) hroom
    refine rename_meets h t.label hroot
      (hserved.fits_names hfits) hthere (fun y hy => ?_)
      (fun target => naming s!"{(Path.ofNames p.segments).display} -> {target.display}"
        (DiskAccess.rename (t.localPath (.ofNames p.segments)) (t.localPath target)))
      (fun hne hfree => ?_)
    · rcases hy with rfl | rfl
      · exact hserved.kind w _ h hqfits hqclear
      · exact hserved.kind w _ h hyfits (target_clear hqclear)
    obtain ⟨a, ha, -⟩ := Option.map_eq_some_iff.1 hthere
    have hne0 : target (w.disk.contents base) p q ≠ [] := by
      intro h0
      obtain ⟨d, hd, -⟩ := hserved.root w h
      rw [h0, hd] at hfree
      cases hfree
    by_cases hmissing :
        w.disk.contents base (target (w.disk.contents base) p q).dropLast = none
    · have hend := rename_orphan h hroot ha hyfits (target_clear hqclear) hne0 hmissing
      refine ⟨_, w, outcome_update_error hend, h, ?_⟩
      rw [if_pos hmissing]
      rfl
    · have hyroom : ∀ y b, w.disk.under base (p.segments ++ y) = some b →
          t.Fits (target (w.disk.contents base) p q ++ y) := fun y b hb =>
        hroom hfree hmissing y ⟨held w.disk.bodies b, by rw [Disk.contents, hb, Option.map_some]⟩
      obtain ⟨d, hend, hd, hmoved⟩ := rename_below h hroot ha hyfits (target_clear hqclear) hne0
        hmissing hfree (target_outside hqclear hthere hne hbelow) hyroom
      refine ⟨.ok (), { w with disk := d }, outcome_update_ok hend, hd, ?_⟩
      rw [if_neg hmissing]
      exact congrArg (Prod.mk _) hmoved

/-- Where the target of a rename has a path that is too long, the system says so. -/
theorem rename_long (hq : outcome (t.enter q) w = (.ok (.ofNames q.segments), w))
    (hqfits : t.Fits q.segments)
    (hqclear : Tree.Clear Volume.Content.kind (w.disk.contents base) q.segments)
    (hthere : w.disk.contents base p.segments ≠ none) (hroot : p.segments ≠ [])
    (hne : target (w.disk.contents base) p q ≠ p.segments)
    (hlong : pathLimit <
      (t.localPath (.ofNames (target (w.disk.contents base) p q))).utf8ByteSize) :
    ∃ e, outcome (t.rename p q) w = (.error (.io e), w) := by
  have hserved := contents_served t base
  have hsource : outcome (t.kind (.ofNames p.segments)) w = _ := hserved.kind w _ h hfits hclear
  have hdestination := hserved.kind w _ h hqfits hqclear
  have hentries : ∀ m ∈ target (w.disk.contents base) p q, EntryName m := by
    rcases target_cases (l := w.disk.contents base) (p := p) (q := q) with hy | ⟨n, hn, hy, -⟩
    · rw [hy]
      exact hqfits.names
    · rw [hy]
      simpa [or_imp, forall_and] using ⟨hqfits.names, hfits.names n hn⟩
  obtain ⟨e, hkind⟩ := kind_long (h.seated.localPath_nul _ hentries) hlong w
  obtain ⟨x, n, hx⟩ := (List.eq_nil_or_concat' p.segments).resolve_left hroot
  have hplace := Tree.placeIn_outcome (x := x) Volume.Content.kind _
    (hserved.fits_names hfits n (by simp [hx])) hdestination
  rw [← target_concat hx, ← hx] at hplace
  have hrefused : outcome (t.tree.renameTarget (.ofNames p.segments) (.ofNames q.segments)) w =
      (.error (.io e), w) := by
    unfold Tree.renameTarget
    rw [outcome_bind_ok hplace, if_neg (fun he => hne (Path.ofNames_injective he))]
    exact outcome_bind_error hkind _
  obtain ⟨content, hcontent⟩ := Option.ne_none_iff_exists'.1 hthere
  refine ⟨e, ?_⟩
  unfold Mount.rename
  rw [outcome_bind_ok hp, outcome_bind_ok hq, outcome_bind_ok hsource, hcontent]
  exact outcome_bind_error hrefused _

end Operations

/-- It is mounted, and it reads no other files than those below the mounted directory. -/
structure Direct (t : Mount Run) : Prop where
  mounted : t.phase = .mounted
  slow : t.config.quickRead = false

section Whole

open Operation

variable {op : Operation} (ht : t.Direct)

include ht

/-- The mount ends each allowed operation on its own paths as the contract says, if a rename has
room and no file is longer than a file can be. -/
theorem fulfils (h : t.Holds base w.disk) (hop : op.Allowed t (w.disk.contents base))
    (hroom : op.Roomy t (w.disk.contents base))
    (hours : ∀ p ∈ op.paths, t.resolver.accepts p = true)
    (hlen : ∀ x data, w.disk.contents base x = some (.file data) → data.length ≤ Volume.longest) :
    t.Fulfils base op w := by
  have henter : ∀ p ∈ op.paths, outcome (t.enter p) w = (.ok (.ofNames p.segments), w) :=
    fun p hp => enter_outcome ht.mounted (hop.1 p hp).absolute (hours p hp) (hop.1 p hp).outside w
  obtain ⟨husable, hop⟩ := hop
  cases op with
  | mkdirs p =>
    have hp := husable p (by simp [paths])
    exact mkdirs_fulfils h (henter p (by simp [paths])) hp.fits hp.clear
  | write p overwrite bufferSize data =>
    have hp := husable p (by simp [paths])
    exact write_fulfils h (henter p (by simp [paths])) hp.fits hp.clear overwrite bufferSize hop
  | delete p recursive =>
    have hp := husable p (by simp [paths])
    exact delete_fulfils h (henter p (by simp [paths])) hp.fits hp.clear hop recursive
  | rename p q =>
    have hp := husable p (by simp [paths])
    have hq := husable q (by simp [paths])
    exact rename_fulfils h (henter p (by simp [paths])) hp.fits hp.clear
      (henter q (by simp [paths])) hq.fits hq.clear hop.1 hop.2 hroom
  | isThere p =>
    have hp := husable p (by simp [paths])
    exact isThere_fulfils h (henter p (by simp [paths])) hp.fits hp.clear
  | status p =>
    have hp := husable p (by simp [paths])
    exact status_fulfils h (henter p (by simp [paths])) hp.fits hp.clear
  | list p =>
    have hp := husable p (by simp [paths])
    exact list_fulfils h (henter p (by simp [paths])) hp.fits hp.clear
  | read p size =>
    have hp := husable p (by simp [paths])
    exact read_fulfils h (henter p (by simp [paths])) hp.fits hp.clear ht.slow (hlen _) hop

/-- A path of another scheme is refused before anything is done. -/
theorem foreign (hother : ¬ ∀ p ∈ op.paths, t.resolver.accepts p = true)
    (husable : ∀ p ∈ op.paths, Usable t (w.disk.contents base) p) :
    ∃ reason, outcome (op.run t) w = (.error (.invalidPath reason), w) := by
  refine refused_of t.enter (fun p => t.resolver.accepts p = true)
    (fun p hp hours => ⟨_, enter_outcome ht.mounted (husable p hp).absolute hours
      (husable p hp).outside w⟩)
    (fun p hp => ?_) (fun p fault hp hfault => ?_) (fun p q p' fault hop hp hfault => ?_) hother
  · obtain ⟨reason, hreason⟩ := Resolver.resolve_foreign hp
    refine ⟨reason, ?_⟩
    unfold enter requireMounted logical
    rw [if_pos ht.mounted, hreason]
    rfl
  · cases op with
    | _ p =>
      cases hp
      exact outcome_bind_error (outcome_bind_error hfault _) _
  · subst hop
    exact outcome_bind_error ((outcome_bind_ok hp _).trans (outcome_bind_error hfault _)) _

end Whole

end Mount

end VolumeFS
