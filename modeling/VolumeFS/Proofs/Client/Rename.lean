import VolumeFS.Proofs.Client.CopyTree
import VolumeFS.Proofs.Path.Normal

/-!
# Renaming by a client

A volume moves a tree by giving its entries new keys. Where it refuses, the
client copies the tree and deletes the old one. Both ways lead to the same
kinds, bytes and modes at every place.
-/

set_option autoImplicit false

namespace VolumeFS

open Volume

/-- What a rename keeps of an entry, whichever way it is done. -/
def Volume.Entry.shape (e : Entry) : Content × UInt32 := (e.content, e.mode)

def World.refusing (w : World) (on : Bool) : World :=
  { w with volume := { w.volume with refusesRenames := on } }

/-- What was at or below the source is at or below the target, nothing is left there, and all else
is as it was. -/
structure Renamed (before after : Tree.Layout Entry) (source target : List String) : Prop where
  moved : ∀ y, (after (target ++ y)).map Entry.shape = (before (source ++ y)).map Entry.shape
  gone : ∀ y, after (source ++ y) = none
  kept : ∀ y, ¬ source <+: y → ¬ target <+: y → after y = before y

/-- All places after a rename have the shape that the layout before it tells. -/
theorem Renamed.same {before a b : Tree.Layout Entry} {source target : List String}
    (ha : Renamed before a source target) (hb : Renamed before b source target) (y : List String) :
    (a y).map Entry.shape = (b y).map Entry.shape := by
  by_cases ht : target <+: y
  · obtain ⟨z, rfl⟩ := ht
    rw [ha.moved, hb.moved]
  · by_cases hs : source <+: y
    · obtain ⟨z, rfl⟩ := hs
      rw [ha.gone, hb.gone]
    · rw [ha.kept y hs ht, hb.kept y hs ht]

/-- Two places neither of which is above the other have nothing below them in common. -/
theorem apart_below {x target : List String} (hx : ¬ x <+: target) (ht : ¬ target <+: x)
    (y : List String) : ¬ target <+: x ++ y := by
  intro h
  rcases List.prefix_or_prefix_of_prefix h (List.prefix_append x y) with h | h
  · exact ht h
  · exact hx h

namespace Client

theorem moveTo_renamed {c : Client Run} {source target : Path} {w w' : World}
    (h : outcome (VolumeAccess.rename (key source) (key target)) w = (.ok (), w')) :
    outcome (c.moveTo source target) w = (.ok (), w') := by
  unfold moveTo
  rw [outcome_bind_ok (outcome_attempt _ w), h]
  rfl

theorem moveTo_refused {c : Client Run} {source target : Path} {fault : Fault} {w w' : World}
    (h : outcome (VolumeAccess.rename (key source) (key target)) w = (.error fault, w')) :
    outcome (c.moveTo source target) w =
      outcome (c.copyTree source target >>= fun _ => tree.remove source true) w' := by
  unfold moveTo
  rw [outcome_bind_ok (outcome_attempt _ w), h]

/-- Where the target has no directory to lie in, a rename fails either way. -/
theorem moveTo_orphan {x t : List String} {n : String} (c : Client Run) {w : World}
    (hnames : ∀ m ∈ t ++ [n], IsName m) (ht : ∀ d, w.entries t = some d → d.content ≠ .directory) :
    ∃ fault, outcome (c.moveTo (.ofNames x) (.ofNames (t ++ [n]))) w = (.error fault, w) ∧
      (w.entries t = none → w.entries (t ++ [n]) = none → ∃ path, fault = .notFound path) := by
  obtain ⟨fault, htree, -, hmissing⟩ := copyTree_orphan (x := x) c hnames ht
  cases hr : Volume.rename (key (.ofNames x)) (key (.ofNames (t ++ [n]))) w.volume with
  | ok v =>
    obtain ⟨-, -, -, ⟨p, d, hp, hd, hdir⟩, -⟩ := rename_ok hr
    rw [Path.ofNames_key hnames, key_parent] at hp
    cases hp
    exact absurd hdir (ht d hd)
  | error refusal =>
    have hrefused : outcome (VolumeAccess.rename (key (.ofNames x)) (key (.ofNames (t ++ [n])))) w =
        (.error refusal, w) := outcome_update_error hr
    exact ⟨fault, (moveTo_refused hrefused).trans (outcome_bind_error htree _), hmissing⟩

/-- A rename to a place below the source is left to the copy. -/
theorem moveTo_below {x t : List String} {fault : Fault} (c : Client Run) {w : World}
    (hx : ∀ n ∈ x, IsName n) (ht : ∀ n ∈ t, IsName n) (hbelow : x <+: t) (hne : t ≠ x)
    (hcopy : (outcome (c.copyTree (.ofNames x) (.ofNames t)) w).1 = .error fault) :
    (outcome (c.moveTo (.ofNames x) (.ofNames t)) w).1 = .error fault := by
  cases hr : Volume.rename (key (.ofNames x)) (key (.ofNames t)) w.volume with
  | ok v =>
    obtain ⟨-, -, hapart, -⟩ := rename_ok hr
    rw [Path.ofNames_key hx, Path.ofNames_key ht, Bool.eq_false_iff] at hapart
    exact absurd (isBelow_iff.2 ⟨hbelow, hne⟩) hapart
  | error refusal =>
    have hrefused : outcome (VolumeAccess.rename (key (.ofNames x)) (key (.ofNames t))) w =
        (.error refusal, w) := outcome_update_error hr
    rw [moveTo_refused hrefused]
    cases hend : outcome (c.copyTree (.ofNames x) (.ofNames t)) w with
    | mk result w' =>
      rw [hend] at hcopy
      obtain rfl : result = .error fault := hcopy
      rw [outcome_bind_error hend]

/-- A tree that is there can be deleted. -/
theorem remove_found {w : World} (hw : w.volume.WellFormed) {x : List String} (hx : x ≠ [])
    {e : Entry} (he : w.entries x = some e) :
    ∃ w', outcome ((tree : Tree Run).remove (.ofNames x) true) w = (.ok (), w') ∧
      w'.volume.WellFormed ∧ w'.entries = Tree.without w.entries x := by
  obtain ⟨hnone, -⟩ | ⟨d, -, -, -, hrec, -⟩ | ⟨a, w', -, -, hremove, hw', hl⟩ :=
    tree_serves.remove_outcome hw hx (tree_kind (hw.normal x he) w) true
  · rw [hnone] at he
    cases he
  · cases hrec
  · exact ⟨w', hremove, hw', hl⟩

/-- Nothing is above the root. -/
theorem apart_ne_nil {x t : List String} (h : ¬ x <+: t) : x ≠ [] := by
  rintro rfl
  exact h List.nil_prefix

section Move

variable {c : Client Run} {w : World} (hw : w.volume.WellFormed) {x p : List String} {n : String}
  {e d : Entry} (he : w.entries x = some e) (hn : IsName n) (hfree : w.entries (p ++ [n]) = none)
  (hd : w.entries p = some d) (hdir : d.content = .directory) (hapart : ¬ x <+: p ++ [n])

include hw he hfree in
theorem target_apart : ¬ p ++ [n] <+: x := by
  intro h
  have hnone := hw.nothing_within hfree h
  rw [World.entries, hnone] at he
  cases he

include hw he hn hfree hd hdir hapart

/-- Where the volume renames, each entry keeps all it has. -/
theorem moveTo_relocates (hv : w.volume.refusesRenames = false) :
    ∃ w', outcome (c.moveTo (.ofNames x) (.ofNames (p ++ [n]))) w = (.ok (), w') ∧
      w'.volume = w.volume.relocate ⟨x⟩ ⟨p ++ [n]⟩ ∧ w'.volume.WellFormed := by
  have hrename := rename_free hv he hfree hapart hd hdir
  refine ⟨{ w with volume := w.volume.relocate ⟨x⟩ ⟨p ++ [n]⟩ }, moveTo_renamed ?_, rfl,
    hw.relocated hn hfree hd hdir hapart⟩
  rw [Path.ofNames_key (hw.normal x he), child_key hw hn hd]
  exact outcome_update_ok hrename

theorem moveTo_natively (hv : w.volume.refusesRenames = false) :
    ∃ w', outcome (c.moveTo (.ofNames x) (.ofNames (p ++ [n]))) w = (.ok (), w') ∧
      w'.volume.WellFormed ∧ Renamed w.entries w'.entries x (p ++ [n]) := by
  obtain ⟨w', hmove, hv', hw'⟩ := moveTo_relocates (c := c) hw he hn hfree hd hdir hapart hv
  have hmoved : Tree.Relocated w.entries w'.entries x (p ++ [n]) := by
    have hlayout := relocate_layout hw x hfree
    rwa [← hv'] at hlayout
  refine ⟨w', hmove, hw', ?_, ?_, hmoved.elsewhere⟩
  · exact fun y => congrArg (Option.map Entry.shape) (hmoved.arrived y)
  · intro y
    exact hmoved.left _ (List.prefix_append _ _)
      (apart_below hapart (target_apart hw he hfree) y)

/-- Where the volume does not rename, the tree is copied and then deleted. The copies belong to the
volume's owner. -/
theorem moveTo_copies (hv : w.volume.refusesRenames = true) :
    ∃ (order : List (List String)) (w₁ w₂ : World),
      Copies c [(.ofNames x, .ofNames (p ++ [n]))] w (order.map (pairOf x (p ++ [n]))) w₁ ∧
      outcome (c.copyTree (.ofNames x) (.ofNames (p ++ [n]))) w = (.ok (), w₁) ∧
      order.Nodup ∧ (∀ z, z ∈ order ↔ x <+: z ∧ Tree.Occupied w.entries z) ∧
      (∀ y, ¬ p ++ [n] <+: y → w₁.entries y = w.entries y) ∧
      (∀ y, w₁.entries (p ++ [n] ++ y) = (w.entries (x ++ y)).map (copyOf w.volume)) ∧
      outcome (c.moveTo (.ofNames x) (.ofNames (p ++ [n]))) w = (.ok (), w₂) ∧
      w₂.volume.WellFormed ∧ w₂.entries = Tree.without w₁.entries x := by
  have hbeside := target_apart hw he hfree
  have hout := apart_below hapart hbeside
  obtain ⟨order, w₁, hcopies, hcopy, hnodup, hmem, hw₁, hin, helse⟩ :=
    copyTree_outside (c := c) hw hn hd hdir hout he hfree
  obtain ⟨w₂, hremove, hw₂, hl⟩ :=
    remove_found hw₁ (apart_ne_nil hapart) ((helse x hbeside).trans he)
  refine ⟨order, w₁, w₂, hcopies, hcopy, hnodup, hmem, helse, hin, ?_, hw₂, hl⟩
  have hrefused : outcome (VolumeAccess.rename (key (.ofNames x)) (key (.ofNames (p ++ [n])))) w =
      (.error _, w) := outcome_update_error (rename_refused hv)
  rw [moveTo_refused hrefused, outcome_bind_ok hcopy]
  exact hremove

theorem moveTo_by_copy (hv : w.volume.refusesRenames = true) :
    ∃ (order : List (List String)) (w₁ w₂ : World),
      Copies c [(.ofNames x, .ofNames (p ++ [n]))] w (order.map (pairOf x (p ++ [n]))) w₁ ∧
      outcome (c.copyTree (.ofNames x) (.ofNames (p ++ [n]))) w = (.ok (), w₁) ∧
      order.Nodup ∧ (∀ z, z ∈ order ↔ x <+: z ∧ Tree.Occupied w.entries z) ∧
      (∀ y, ¬ p ++ [n] <+: y → w₁.entries y = w.entries y) ∧
      outcome (c.moveTo (.ofNames x) (.ofNames (p ++ [n]))) w = (.ok (), w₂) ∧
      w₂.volume.WellFormed ∧ Renamed w.entries w₂.entries x (p ++ [n]) := by
  obtain ⟨order, w₁, w₂, hcopies, hcopy, hnodup, hmem, helse, hin, hmove, hw₂, hl⟩ :=
    moveTo_copies (c := c) hw he hn hfree hd hdir hapart hv
  refine ⟨order, w₁, w₂, hcopies, hcopy, hnodup, hmem, helse, hmove, hw₂, ?_, ?_, ?_⟩
  · intro y
    have hy : ¬ x <+: p ++ [n] ++ y := apart_below (target_apart hw he hfree) hapart y
    rw [hl, Tree.without, if_neg hy, hin]
    cases w.entries (x ++ y) <;> rfl
  · intro y
    rw [hl, Tree.without, if_pos (List.prefix_append _ _)]
  · intro y hs ht
    rw [hl, Tree.without, if_neg hs, helse y ht]

end Move

/-- A rename either has no target, or one that is free or the source itself. -/
theorem target_outcome {w : World} {x q : List String} (hx : ∀ n ∈ x, IsName n)
    (hq : ∀ n ∈ q, IsName n) :
    (∃ fault, outcome ((tree : Tree Run).renameTarget (.ofNames x) (.ofNames q)) w =
      (.error fault, w)) ∨
    ∃ t, outcome ((tree : Tree Run).renameTarget (.ofNames x) (.ofNames q)) w =
        (.ok (.ofNames t), w) ∧
      (∀ n ∈ t, IsName n) ∧ (t ≠ x → w.entries t = none) := by
  have hplace : (∃ fault, outcome ((tree : Tree Run).placeIn (.ofNames x) (.ofNames q)) w =
        (.error fault, w)) ∨
      ∃ t, outcome ((tree : Tree Run).placeIn (.ofNames x) (.ofNames q)) w =
        (.ok (.ofNames t), w) ∧ ∀ n ∈ t, IsName n := by
    rcases List.eq_nil_or_concat x with rfl | ⟨x, n, rfl⟩
    · unfold Tree.placeIn
      rw [outcome_bind_ok (tree_kind hq w)]
      rcases (w.entries q).map Entry.kind with _ | _ | _
      · exact .inr ⟨q, rfl, hq⟩
      · exact .inr ⟨q, rfl, hq⟩
      · exact .inl ⟨_, rfl⟩
    · rw [List.concat_eq_append] at *
      have hn : IsName n := hx n (by simp)
      exact .inr ⟨_, Tree.placeIn_outcome Entry.kind w.entries hn (tree_kind hq w),
        Tree.placeOf_forall hn hq⟩
  unfold Tree.renameTarget
  rcases hplace with ⟨fault, hfault⟩ | ⟨t, ht, hnames⟩
  · exact .inl ⟨fault, outcome_bind_error hfault _⟩
  · rw [outcome_bind_ok ht]
    by_cases htx : t = x
    · refine .inr ⟨t, ?_, hnames, fun hne => absurd htx hne⟩
      rw [if_pos (by rw [htx])]
      rfl
    · rw [if_neg (fun he => htx (Path.ofNames_injective he)), outcome_bind_ok (tree_kind hnames w)]
      cases hl : w.entries t with
      | none => exact .inr ⟨t, rfl, hnames, fun _ => hl⟩
      | some a => exact .inl ⟨_, rfl⟩

section Ends

variable {c : Client Run} {w : World} {source destination : Path} {x q : List String}
  (hp : c.resolver.resolve source = .ok (.ofNames x)) (hx : ∀ n ∈ x, IsName n)
  (hq : c.resolver.resolve destination = .ok (.ofNames q))

include hp hx hq

theorem rename_missing (he : w.entries x = none) : outcome (c.rename source destination) w =
    (.error (.notFound (Path.ofNames x).text), w) := by
  have hthere := requireStat_outcome (w := w) hx
  rw [he] at hthere
  unfold rename
  rw [outcome_bind_ok (resolve_outcome hp w), outcome_bind_ok (resolve_outcome hq w),
    outcome_bind_error hthere]

theorem rename_outcome {e : Entry} (he : w.entries x = some e) :
    outcome (c.rename source destination) w =
      match outcome ((tree : Tree Run).renameTarget (.ofNames x) (.ofNames q)) w with
      | (.error fault, w') => (.error fault, w')
      | (.ok target, w') => if target = .ofNames x then (.ok (), w')
          else outcome (c.moveTo (.ofNames x) target) w' := by
  have hthere := requireStat_outcome (w := w) hx
  rw [he] at hthere
  unfold rename
  rw [outcome_bind_ok (resolve_outcome hp w), outcome_bind_ok (resolve_outcome hq w),
    outcome_bind_ok hthere, outcome_bind]
  rcases outcome ((tree : Tree Run).renameTarget (.ofNames x) (.ofNames q)) w with
    ⟨fault | target, w'⟩
  · rfl
  · dsimp only
    split_ifs <;> rfl

/-- A rename has nothing to rename or no target, or it has nothing to do, or it moves the source to
a free place. -/
theorem rename_cases (hw : w.volume.WellFormed) (hqnames : ∀ n ∈ q, IsName n) :
    (∃ fault, outcome (c.rename source destination) w = (.error fault, w)) ∨
    ∃ e t, w.entries x = some e ∧
      outcome ((tree : Tree Run).renameTarget (.ofNames x) (.ofNames q)) w =
        (.ok (.ofNames t), w) ∧
      (t = x ∧ outcome (c.rename source destination) w = (.ok (), w) ∨
        t ≠ x ∧ ∃ z n, t = z ++ [n] ∧ (∀ m ∈ z ++ [n], IsName m) ∧ w.entries (z ++ [n]) = none ∧
          outcome (c.rename source destination) w =
            outcome (c.moveTo (.ofNames x) (.ofNames (z ++ [n]))) w) := by
  cases he : w.entries x with
  | none => exact .inl ⟨_, rename_missing hp hx hq he⟩
  | some e =>
    have hrename := rename_outcome hp hx hq he
    obtain ⟨fault, hfault⟩ | ⟨t, ht, hnames, hfree⟩ := target_outcome (w := w) hx hqnames
    · rw [hfault] at hrename
      exact .inl ⟨fault, hrename⟩
    rw [ht] at hrename
    refine .inr ⟨e, t, rfl, ht, ?_⟩
    by_cases htx : t = x
    · exact .inl ⟨htx, hrename.trans (if_pos (congrArg Path.ofNames htx))⟩
    · obtain ⟨z, n, rfl⟩ := named_of_free hw (hfree htx)
      exact .inr ⟨htx, z, n, rfl, hnames, hfree htx,
        hrename.trans (if_neg fun h => htx (Path.ofNames_injective h))⟩

end Ends

/-- Whether a rename has a target, and which, is told by the entries alone. -/
theorem target_told (w : World) {x q : List String} {n : String} (hn : IsName n)
    (hq : ∀ m ∈ q, IsName m) : ∃ result, ∀ w' : World, w'.entries = w.entries →
      outcome ((tree : Tree Run).renameTarget (.ofNames (x ++ [n])) (.ofNames q)) w' =
        (result, w') := by
  refine ⟨_, fun w' hw' => Tree.renameTarget_outcome Entry.kind w.entries hn (fun y hy => ?_)⟩
  have hy' : ∀ m ∈ y, IsName m := by
    rcases hy with rfl | rfl
    · exact hq
    · exact Tree.placeOf_forall hn hq
  rw [tree_kind hy', hw']

/-- A target that is neither the source nor below it is told by the names alone. -/
theorem target_apart_names {w : World} (hw : w.volume.WellFormed) {x q : List String}
    (hx : ∀ n ∈ x, IsName n) (hq : ∀ n ∈ q, IsName n) {target : Path}
    (htarget : (outcome ((tree : Tree Run).renameTarget (.ofNames x) (.ofNames q)) w).1 =
      .ok target)
    (hne : target ≠ .ofNames x) (hbelow : (key (.ofNames x)).isBelow (key target) = false) :
    ∃ t m, target = .ofNames (t ++ [m]) ∧ (∀ n ∈ t ++ [m], IsName n) ∧
      w.entries (t ++ [m]) = none ∧ ¬ x <+: t ++ [m] ∧
      ∀ w' : World, w'.entries = w.entries →
        outcome ((tree : Tree Run).renameTarget (.ofNames x) (.ofNames q)) w' =
          (.ok (.ofNames (t ++ [m])), w') := by
  obtain ⟨fault, hfault⟩ | ⟨t, ht, hnames, hfree⟩ := target_outcome (w := w) hx hq
  · rw [hfault] at htarget
    cases htarget
  rw [ht] at htarget
  cases htarget
  have htx : t ≠ x := fun he => hne (by rw [he])
  have hout : ¬ x <+: t := by
    intro hpre
    rw [Path.ofNames_key hx, Path.ofNames_key hnames, Bool.eq_false_iff] at hbelow
    exact hbelow (isBelow_iff.2 ⟨hpre, htx⟩)
  rcases List.eq_nil_or_concat t with rfl | ⟨t, m, rfl⟩
  · obtain ⟨r, hr, -⟩ := hw.root
    have hnone : w.entries [] = none := hfree htx
    rw [World.entries, ← Key.root, hr] at hnone
    cases hnone
  rw [List.concat_eq_append] at *
  refine ⟨t, m, rfl, hnames, hfree htx, hout, fun w' hw' => ?_⟩
  rcases List.eq_nil_or_concat x with rfl | ⟨x, n, rfl⟩
  · exact absurd List.nil_prefix hout
  rw [List.concat_eq_append] at *
  obtain ⟨result, hsame⟩ := target_told (x := x) w (hx n (by simp)) hq
  have hhere := hsame w rfl
  rw [ht] at hhere
  obtain rfl : Except.ok (Path.ofNames (t ++ [m])) = result := congrArg Prod.fst hhere
  exact hsame w' hw'

/-- The pairs of a copy are the entries of the source, each with its place below the target. -/
theorem mem_pairs {w : World} {x target : List String} {order : List (List String)}
    (hmem : ∀ z, z ∈ order ↔ x <+: z ∧ ∃ a, w.entries z = some a) {pair : Path × Path} :
    pair ∈ order.map (pairOf x target) ↔ ∃ y, (w.entries (x ++ y)).isSome = true ∧
      pair = (.ofNames (x ++ y), .ofNames (target ++ y)) := by
  rw [List.mem_map]
  constructor
  · rintro ⟨z, hz, rfl⟩
    obtain ⟨⟨z, rfl⟩, a, ha⟩ := (hmem z).1 hz
    exact ⟨z, Option.isSome_iff_exists.2 ⟨a, ha⟩, pairOf_below x _ z⟩
  · rintro ⟨z, hz, rfl⟩
    obtain ⟨a, ha⟩ := Option.isSome_iff_exists.1 hz
    exact ⟨x ++ z, (hmem _).2 ⟨List.prefix_append _ _, a, ha⟩, pairOf_below x _ z⟩

/-- Whether the volume renames or refuses to, a rename to a free place outside of the source gives
every place the same kind, bytes and mode; and a copy is made of each entry once. -/
theorem rename_either_way {c : Client Run} (hc : c.resolver.Reached) {w : World}
    (hw : w.volume.Reachable) {source destination p q target : Path} (hsource : source.Normal)
    (hdestination : destination.Normal) (hp : c.resolver.resolve source = .ok p)
    (hq : c.resolver.resolve destination = .ok q)
    (hthere : (w.volume.find? (key p)).isSome = true)
    (htarget : (outcome ((tree : Tree Run).renameTarget p q) w).1 = .ok target)
    (hne : target ≠ p) (hbelow : (key p).isBelow (key target) = false)
    (hparent : ∃ above d, target.parent? = some above ∧ w.volume.find? (key above) = some d ∧
      d.content = .directory) :
    ∃ native copied,
      outcome (c.rename source destination) (w.refusing false) = (.ok (), native) ∧
      outcome (c.rename source destination) (w.refusing true) = (.ok (), copied) ∧
      Renamed w.entries native.entries p.segments target.segments ∧
      Renamed w.entries copied.entries p.segments target.segments ∧
      (∀ k, (native.volume.find? k).map Entry.shape = (copied.volume.find? k).map Entry.shape) ∧
      ∃ order between,
        outcome (c.copyTree p target) (w.refusing true) = (.ok (), between) ∧
        Copies c [(p, target)] (w.refusing true) order between ∧
        order.Nodup ∧
        (∀ pair, pair ∈ order ↔ ∃ y, (w.entries (p.segments ++ y)).isSome = true ∧
          pair = (.ofNames (p.segments ++ y), .ofNames (target.segments ++ y))) ∧
        ∀ k e, w.volume.find? k = some e → between.volume.find? k = some e := by
  obtain ⟨x, rfl, hx⟩ := Resolver.resolve_names hc.sound hsource hp
  obtain ⟨y, rfl, hy⟩ := Resolver.resolve_names hc.sound hdestination hq
  have hwell := hw.wellFormed
  obtain ⟨t, m, rfl, hnames, hfree, hout, hsame⟩ :=
    target_apart_names hwell hx hy htarget hne hbelow
  obtain ⟨above, d, habove, hd, hdir⟩ := hparent
  rw [Path.ofNames_parent] at habove
  obtain rfl : Path.ofNames t = above := by simpa using habove
  have htnames : ∀ n ∈ t, IsName n := fun n hn => hnames n (by simp [hn])
  rw [Path.ofNames_key hx] at hthere
  rw [Path.ofNames_key htnames] at hd
  obtain ⟨e, he⟩ := Option.isSome_iff_exists.1 hthere
  have hm : IsName m := hnames m (by simp)
  have hrefusing : ∀ on, (w.refusing on).volume.WellFormed := fun on =>
    ⟨hwell.root, hwell.name, hwell.above, hwell.mode, hwell.length, hwell.unique⟩
  have hstart : ∀ on, outcome (c.rename source destination) (w.refusing on) =
      outcome (c.moveTo (.ofNames x) (.ofNames (t ++ [m]))) (w.refusing on) := by
    intro on
    have hsource : (w.refusing on).entries x = some e := he
    rw [rename_outcome hp hx hq hsource, hsame (w.refusing on) rfl]
    dsimp only
    rw [if_neg hne]
  obtain ⟨native, hnative, -, hmoved⟩ :=
    moveTo_natively (c := c) (hrefusing false) he hm hfree hd hdir hout rfl
  obtain ⟨order, between, copied, hcopies, hcopy, hnodup, hmem, hkept, hcopied, -, hmoved'⟩ :=
    moveTo_by_copy (c := c) (hrefusing true) he hm hfree hd hdir hout rfl
  refine ⟨native, copied, (hstart false).trans hnative, (hstart true).trans hcopied, hmoved,
    hmoved', fun k => hmoved.same hmoved' k.names, order.map (pairOf x (t ++ [m])), between,
    hcopy, hcopies, ?_, ?_, ?_⟩
  · refine hnodup.map_on (fun a _ b _ hab => ?_)
    exact Path.ofNames_injective (congrArg Prod.fst hab)
  · exact fun pair => mem_pairs hmem
  · intro k a ha
    refine (hkept k.names (fun hpre => ?_)).trans ha
    have hnone := hwell.nothing_within hfree hpre
    rw [ha] at hnone
    cases hnone

def shelf : World :=
  (calls [.makeDirectory "/a", .createFile "/a/f", .openWriter "/a/f", .write 0 [1, 2, 3]]
    (.start "v" 0 0 default)).world

def visitor : Client Run :=
  ⟨"v", "h", 4096, ⟨Path.volumeScheme, .root⟩, attributeOracle "h", .root⟩

theorem visitor_reached : visitor.resolver.Reached :=
  have hroot : Path.root.Normal := Path.leads_nil true
  .start hroot rfl

theorem shelf_reachable : shelf.volume.Reachable :=
  ⟨_, _, _, _, _, rfl⟩

theorem directory_renamed_either_way : ∃ native copied,
    outcome (visitor.rename (.ofNames ["a"]) (.ofNames ["b"])) (shelf.refusing false) =
      (.ok (), native) ∧
    outcome (visitor.rename (.ofNames ["a"]) (.ofNames ["b"])) (shelf.refusing true) =
      (.ok (), copied) ∧
    Renamed shelf.entries copied.entries ["a"] ["b"] := by
  have ha : (Path.ofNames ["a"]).Normal := Path.leads_names.2 (by decide)
  have hb : (Path.ofNames ["b"]).Normal := Path.leads_names.2 (by decide)
  have htarget : (outcome ((tree : Tree Run).renameTarget (.ofNames ["a"]) (.ofNames ["b"]))
      shelf).1 = .ok (.ofNames ["b"]) := rfl
  obtain ⟨native, copied, hnative, hcopied, -, hmoved, -⟩ :=
    rename_either_way visitor_reached shelf_reachable ha hb rfl rfl (by decide) htarget
      (by decide) (by decide) ⟨.root, _, rfl, rfl, rfl⟩
  exact ⟨native, copied, hnative, hcopied, hmoved⟩

end Client

end VolumeFS
