import VolumeFS.Proofs.Client.Exposed
import VolumeFS.Proofs.Client.Rename

/-!
# No rename loses data

Calls of the volume may fail at any moment of a rename, be it during the native
attempt, the copy or the delete. The delete begins only after all was copied, and
it touches nothing at the target, so that at every moment all that was at the
source is still there or is at the target.
-/

set_option autoImplicit false

namespace VolumeFS

open Volume Exposed

/-- The bytes of a file are part of its shape. -/
theorem Volume.contents_of_shape {v v' : Volume} {k k' : Key}
    (h : (v.find? k).map Entry.shape = (v'.find? k').map Entry.shape) :
    v.contents? k = v'.contents? k' := by
  unfold contents?
  rcases hk : v.find? k with _ | ⟨content, mode, uid, gid⟩ <;>
    rcases hk' : v'.find? k' with _ | ⟨content', mode', uid', gid'⟩ <;>
    simp only [hk, hk', Option.map_none, Option.map_some, reduceCtorEq, Option.some.injEq,
      Entry.shape, Prod.mk.injEq] at h
  · rfl
  · obtain ⟨rfl, -⟩ := h
    cases content <;> rfl

namespace Client

/-- What was at or below `x` is there as it was, or else all of it is at the target. -/
def Sheltered (before : Volume) (x target : List String) (v : Volume) : Prop :=
  (∀ y, v.find? ⟨x ++ y⟩ = before.find? ⟨x ++ y⟩) ∨
    ∀ y, (v.find? ⟨target ++ y⟩).map Entry.shape = (before.find? ⟨x ++ y⟩).map Entry.shape

structure Lossless (before : Volume) (x target : List String) (s : Exposed)
    (result : Except Fault Unit) (after : Exposed) : Prop where
  sheltered : Kept (Sheltered before x target) s after
  gone : result = .ok () → ∀ y, after.world.volume.find? ⟨x ++ y⟩ = none
  caused : ∀ reason, result = .error (.other reason) → Caused s.failure? (.other reason)

section Move

variable {before : Volume} {x t : List String} {s s₁ after : Exposed}

theorem Lossless.of_error {fault : Fault} (hkept : Kept (Sheltered before x t) s after)
    (hfault : ∀ reason, fault = .other reason → Caused s.failure? fault) :
    Lossless before x t s (.error fault) after := by
  refine ⟨hkept, (fun h => by cases h), fun reason h => ?_⟩
  cases h
  exact hfault reason rfl

theorem Lossless.from {result : Except Fault Unit} (h : Lossless before x t s₁ result after)
    (hkept : Kept (Sheltered before x t) s s₁) : Lossless before x t s result after :=
  ⟨hkept.trans h.sheltered, h.gone, fun reason hr => hkept.failures ▸ h.caused reason hr⟩

/-- As long as nothing but the target is changed, the source is as it was. -/
theorem sheltered_copying (hout : ∀ y, ¬ t <+: x ++ y) {v : Volume}
    (h : ChangedWithin before t v) : Sheltered before x t v :=
  .inl fun y => h.outside _ (hout y)

/-- A delete of the source keeps what was copied. -/
theorem removing_lossless {e : Entry} (hw : s.world.volume.WellFormed)
    (he : s.world.entries x = some e) (hapart : ¬ x <+: t) (hbeside : ¬ t <+: x)
    (hcopied : ∀ y, (s.world.volume.find? ⟨t ++ y⟩).map Entry.shape =
      (before.find? ⟨x ++ y⟩).map Entry.shape) :
    Lossless before x t s (ended ((tree : Tree ExposedRun).remove (.ofNames x) true) s).1
      (ended ((tree : Tree ExposedRun).remove (.ofNames x) true) s).2 := by
  have hinside : (Path.ofNames x).Inside x := ⟨x, List.prefix_refl x, hw.normal x he, rfl⟩
  have htracks : Tracks (ChangedWithin s.world.volume x)
      ((tree : Tree ExposedRun).remove (.ofNames x) true)
      ((tree : Tree Run).remove (.ofNames x) true) (fun _ => True) := tracks_remove hinside true
  obtain ⟨result, after, hend, hkept, hending⟩ := htracks.ending (.refl hw x)
  rw [hend]
  have hsheltered : Kept (Sheltered before x t) s after := by
    refine hkept.mono fun v hv => .inr fun y => ?_
    rw [hv.outside _ (apart_below hbeside hapart y), hcopied y]
  cases hending with
  | failed hcause => exact .of_error hsheltered fun _ _ => hcause
  | same hsame _ =>
    obtain ⟨w', hremove, -, hl⟩ := remove_found hw (apart_ne_nil hapart) he
    rw [hremove] at hsame
    cases hsame
    refine ⟨hsheltered, fun _ y => ?_, fun reason h => by cases h⟩
    have hy : (after.world.entries (x ++ y)) = Tree.without s.world.entries x (x ++ y) := by rw [hl]
    rwa [Tree.without, if_pos (List.prefix_append _ _)] at hy

/-- The way of a rename that the volume did not do. -/
theorem copying_lossless (c : Client ExposedRun) {e : Entry} (hw : s.world.volume.WellFormed)
    (he : s.world.entries x = some e) (ht : ∀ n ∈ t, IsName n)
    (hfree : s.world.entries t = none) (hapart : ¬ x <+: t) :
    let move := c.copyTree (.ofNames x) (.ofNames t) >>= fun _ => tree.remove (.ofNames x) true
    Lossless s.world.volume x t s (ended move s).1 (ended move s).2 := by
  intro move
  have hinside : (Path.ofNames t).Inside t := ⟨t, List.prefix_refl t, ht, rfl⟩
  have hbeside : ¬ t <+: x := by
    intro hpre
    have hnone := hw.nothing_within hfree hpre
    rw [World.entries, hnone] at he
    cases he
  have hout := apart_below hapart hbeside
  have htracks : Tracks (ChangedWithin s.world.volume t)
      (c.copyTree (.ofNames x) (.ofNames t)) (c.unexposed.copyTree (.ofNames x) (.ofNames t))
      (fun _ => True) := c.tracks_copyTree _ hinside
  obtain ⟨result, s₁, hend, hkept, hending⟩ := htracks.ending (.refl hw t)
  have hsheltered := hkept.mono fun v hv => sheltered_copying (x := x) hout hv
  simp only [move, ended_bind, hend]
  cases hending with
  | failed hcause => exact .of_error hsheltered fun _ _ => hcause
  | same hsame _ =>
    rcases List.eq_nil_or_concat t with rfl | ⟨p, n, rfl⟩
    · exact absurd List.nil_prefix hbeside
    rw [List.concat_eq_append] at *
    by_cases hparent : ∃ d, s.world.entries p = some d ∧ d.content = .directory
    · obtain ⟨d, hd, hdir⟩ := hparent
      obtain ⟨order, w₁, -, hcopy, -, -, hw₁, hin, helse⟩ :=
        copyTree_outside (c := c.unexposed) hw (ht n (by simp)) hd hdir hout he hfree
      rw [hcopy] at hsame
      cases hsame
      refine .from (removing_lossless hw₁ ((helse x hbeside).trans he) hapart hbeside fun y => ?_)
        hsheltered
      have hy := hin y
      unfold World.entries at hy
      rw [hy]
      cases s.world.volume.find? ⟨x ++ y⟩ <;> rfl
    · obtain ⟨fault, hcopy, ⟨path, hfault⟩, -⟩ := copyTree_orphan (x := x) c.unexposed ht
        (fun d hd hdir => hparent ⟨d, hd, hdir⟩)
      rw [hcopy] at hsame
      obtain ⟨rfl, -⟩ := Prod.mk.inj hsame
      refine .of_error hsheltered fun reason h => ?_
      rw [h] at hfault
      simp at hfault

theorem moveTo_lossless (c : Client ExposedRun) {e : Entry} (hw : s.world.volume.WellFormed)
    (he : s.world.entries x = some e) (ht : ∀ n ∈ t, IsName n)
    (hfree : s.world.entries t = none) (hapart : ¬ x <+: t) :
    Lossless s.world.volume x t s (ended (c.moveTo (.ofNames x) (.ofNames t)) s).1
      (ended (c.moveTo (.ofNames x) (.ofNames t)) s).2 := by
  have hstart : Sheltered s.world.volume x t s.world.volume := .inl fun _ => rfl
  -- Whatever the attempt failed with, it had no effect.
  have hfallback : ∀ fault, ended (attempt (VolumeAccess.rename (key (.ofNames x))
      (key (.ofNames t)) : ExceptT Fault ExposedRun Unit)) s = (.ok (.error fault), s.next s.world) →
      Lossless s.world.volume x t s (ended (c.moveTo (.ofNames x) (.ofNames t)) s).1
        (ended (c.moveTo (.ofNames x) (.ofNames t)) s).2 := by
    intro fault hattempt
    unfold moveTo
    simp only [ended_bind, hattempt]
    have hcopying := copying_lossless (s := s.next s.world) c hw he ht hfree hapart
    simp only [ended_bind] at hcopying
    exact hcopying.from (.next hstart)
  have hattempt : ended (attempt (VolumeAccess.rename (key (.ofNames x))
      (key (.ofNames t)) : ExceptT Fault ExposedRun Unit)) s = (.ok (ended (call (update
        (Volume.rename (key (.ofNames x)) (key (.ofNames t))))) s).1, (ended (call (update
        (Volume.rename (key (.ofNames x)) (key (.ofNames t))))) s).2) := rfl
  rw [ended_call] at hattempt
  cases hf : s.failure? s.calls with
  | some failure =>
    rw [hf] at hattempt
    exact hfallback _ hattempt
  | none =>
    rw [hf] at hattempt
    cases hr : Volume.rename (key (.ofNames x)) (key (.ofNames t)) s.world.volume with
    | error fault =>
      rw [outcome_update_error hr] at hattempt
      exact hfallback _ hattempt
    | ok v =>
      rw [outcome_update_ok hr] at hattempt
      unfold moveTo
      simp only [ended_bind, hattempt]
      obtain ⟨-, -, -, -, rfl⟩ := rename_ok hr
      rw [Path.ofNames_key (hw.normal x he), Path.ofNames_key ht]
      have hmoved := relocate_layout hw x hfree
      refine ⟨.next (.inr fun y => congrArg (Option.map Entry.shape) (hmoved.arrived y)),
        fun _ y => ?_, fun reason h => by cases h⟩
      refine hmoved.left _ (List.prefix_append _ _) (apart_below hapart ?_ y)
      intro hpre
      have hnone := hw.nothing_within hfree hpre
      rw [World.entries, hnone] at he
      cases he

section Looking

variable {α : Type} {w : World} {look : ExceptT Fault ExposedRun α} {plain : ExceptT Fault Run α}
  {f : α → ExceptT Fault ExposedRun Unit}
  (hlook : Tracks (· = w.volume) look plain (fun _ => True)) (hs : s.world = w)

include hlook hs

/-- A step that only looks leaves the world as it is, even if a failure ends it. -/
theorem ended_looking {result : Except Fault α} (hplain : outcome plain w = (result, w)) :
    ∃ s₁, Kept (Sheltered w.volume x t) s s₁ ∧
      ((∃ fault, ended look s = (.error fault, s₁) ∧ Caused s.failure? fault) ∨
        ended look s = (result, s₁) ∧ s₁.world = w) := by
  subst hs
  obtain ⟨ending, s₁, hend, hkept, hending⟩ := hlook.ending rfl
  refine ⟨s₁, hkept.mono fun v hv => .inl fun _ => by rw [hv], ?_⟩
  rw [hend]
  cases hending with
  | failed hcause => exact .inl ⟨_, rfl, hcause⟩
  | same hsame _ =>
    rw [hplain] at hsame
    obtain ⟨rfl, hworld⟩ := Prod.mk.inj hsame
    exact .inr ⟨rfl, hworld.symm⟩

theorem looking_lossless {a : α} (hplain : outcome plain w = (.ok a, w))
    (hrest : ∀ s₁ : Exposed, s₁.world = w →
      Lossless w.volume x t s₁ (ended (f a) s₁).1 (ended (f a) s₁).2) :
    Lossless w.volume x t s (ended (look >>= f) s).1 (ended (look >>= f) s).2 := by
  obtain ⟨s₁, hkept, ⟨fault, hend, hcause⟩ | ⟨hend, hworld⟩⟩ :=
    ended_looking (x := x) (t := t) hlook hs hplain
  · rw [ended_bind, hend]
    exact .of_error hkept fun _ _ => hcause
  · rw [ended_bind, hend]
    exact (hrest s₁ hworld).from hkept

theorem refusing_lossless {fault : Fault} (hplain : outcome plain w = (.error fault, w))
    (hfault : ∀ reason, fault ≠ .other reason) :
    Lossless w.volume x t s (ended (look >>= f) s).1 (ended (look >>= f) s).2 := by
  obtain ⟨s₁, hkept, ⟨fault, hend, hcause⟩ | ⟨hend, -⟩⟩ :=
    ended_looking (x := x) (t := t) hlook hs hplain
  · rw [ended_bind, hend]
    exact .of_error hkept fun _ _ => hcause
  · rw [ended_bind, hend]
    exact .of_error hkept fun reason h => absurd h (hfault reason)

end Looking

end Move

/-- The rename of `x`, which has a name, to where it leads. -/
theorem rename_steps {c : Client ExposedRun} {w : World} (hw : w.volume.WellFormed)
    {source destination : Path} {x q t : List String} {n : String} {e : Entry}
    (hp : c.resolver.resolve source = .ok (.ofNames (x ++ [n])))
    (hq : c.resolver.resolve destination = .ok (.ofNames q)) (hnames : ∀ m ∈ q, IsName m)
    (he : w.entries (x ++ [n]) = some e) (ht : t = Tree.placeOf Entry.kind w.entries n q)
    (hapart : ¬ x ++ [n] <+: t) {s : Exposed} (hs : s.world = w) :
    Lossless w.volume (x ++ [n]) t s (ended (c.rename source destination) s).1
      (ended (c.rename source destination) s).2 := by
  have hx := hw.normal (x ++ [n]) he
  have hn : IsName n := hx n (by simp)
  have htnames : ∀ m ∈ t, IsName m := ht ▸ Tree.placeOf_forall hn hnames
  have hne : t ≠ x ++ [n] := fun h => hapart (h ▸ List.prefix_refl _)
  have hresolve : ∀ p : Path, Tracks (· = w.volume) (c.resolve p) (c.unexposed.resolve p)
      (fun _ => True) := fun p => tracks_of_except fun _ _ => trivial
  have hstat : outcome (requireStat (m := Run) (.ofNames (x ++ [n]))) w = (.ok e.stat, w) := by
    unfold requireStat
    rw [Path.ofNames_key hx, outcome_bind_ok (outcome_stat _ w), stat?]
    unfold World.entries at he
    rw [he]
    rfl
  have hkinds : ∀ y, y = q ∨ y = Tree.placeOf Entry.kind w.entries n q →
      outcome ((tree : Tree Run).kind (.ofNames y)) w = (.ok ((w.entries y).map Entry.kind), w) := by
    rintro y (rfl | rfl)
    · exact tree_kind hnames w
    · exact tree_kind (ht ▸ htnames) w
  have htarget := Tree.renameTarget_outcome (x := x) Entry.kind w.entries hn hkinds
  rw [← ht] at htarget
  refine looking_lossless (hresolve source) hs (by
    rw [resolve, outcome_of_except]
    exact congrArg (·, w) hp) fun s₁ hs₁ => ?_
  refine looking_lossless (hresolve destination) hs₁ (by
    rw [resolve, outcome_of_except]
    exact congrArg (·, w) hq) fun s₂ hs₂ => ?_
  refine looking_lossless (tracks_requireStat _ _) hs₂ hstat fun s₃ hs₃ => ?_
  by_cases hfree : w.entries t = none
  · rw [if_pos (.inr hfree)] at htarget
    refine looking_lossless (tracks_renameTarget _ _) hs₃ htarget fun s₄ hs₄ => ?_
    rw [if_neg fun h => hne (Path.ofNames_injective h)]
    subst hs₄
    exact moveTo_lossless c hw he htnames hfree hapart
  · rw [if_neg (not_or.2 ⟨hne, hfree⟩)] at htarget
    exact refusing_lossless (tracks_renameTarget _ _) hs₃ htarget fun _ h => by cases h

/-- Whichever calls fail during a rename to a place that is neither the source nor below it: each
file keeps its bytes at the old path or has them at the new one, nothing is left at the source when
the rename is done, and before anything there is removed or changed all of it has been copied. It
never stops for want of steps. -/
theorem rename_loses_nothing {c : Client ExposedRun} (hc : c.resolver.Reached) {w : World}
    (hw : w.volume.Reachable) (failure? : Nat → Option Failure)
    {source destination p q target : Path} (hsource : source.Normal)
    (hdestination : destination.Normal) (hp : c.resolver.resolve source = .ok p)
    (hq : c.resolver.resolve destination = .ok q)
    (hthere : (w.volume.find? (key p)).isSome = true)
    (htarget : (outcome ((tree : Tree Run).placeIn p q) w).1 = .ok target)
    (hapart : (key p).isWithin (key target) = false) :
    ∃ result after,
      ended (c.rename source destination) (.start w failure?) = (result, after) ∧
      (∀ y bytes, w.volume.contents? ⟨p.segments ++ y⟩ = some bytes →
        after.world.volume.contents? ⟨p.segments ++ y⟩ = some bytes ∨
        after.world.volume.contents? ⟨target.segments ++ y⟩ = some bytes) ∧
      (result = .ok () → ∀ y, after.world.volume.find? ⟨p.segments ++ y⟩ = none) ∧
      (∀ v ∈ after.history,
        (∃ y, v.find? ⟨p.segments ++ y⟩ ≠ w.volume.find? ⟨p.segments ++ y⟩) →
        ∀ y, (v.find? ⟨target.segments ++ y⟩).map Entry.shape =
          (w.volume.find? ⟨p.segments ++ y⟩).map Entry.shape) ∧
      ∀ reason, result = .error (.other reason) → Caused failure? (.other reason) := by
  have hwell := hw.wellFormed
  obtain ⟨x, rfl, hx⟩ := Resolver.resolve_names hc.sound hsource hp
  obtain ⟨q, rfl, hqnames⟩ := Resolver.resolve_names hc.sound hdestination hq
  rw [Path.ofNames_key hx] at hthere hapart
  obtain ⟨e, he⟩ := Option.isSome_iff_exists.1 hthere
  rcases List.eq_nil_or_concat x with rfl | ⟨x, n, rfl⟩
  · cases hapart
  rw [List.concat_eq_append] at *
  have hn : IsName n := hx n (by simp)
  rw [Tree.placeIn_outcome Entry.kind w.entries hn (tree_kind hqnames w)] at htarget
  obtain rfl : Path.ofNames (Tree.placeOf Entry.kind w.entries n q) = target := by
    simpa using htarget
  rw [Path.ofNames_key (Tree.placeOf_forall hn hqnames)] at hapart
  have hout : ¬ x ++ [n] <+: Tree.placeOf Entry.kind w.entries n q := by
    intro hpre
    rw [Bool.eq_false_iff] at hapart
    exact hapart (List.isPrefixOf_iff_prefix.2 hpre)
  have hrun := rename_steps hwell hp hq hqnames he rfl hout (s := .start w failure?) rfl
  generalize ended (c.rename source destination) (.start w failure?) = run at hrun
  obtain ⟨result, after⟩ := run
  obtain ⟨hkept, hgone, hcaused⟩ := hrun
  obtain ⟨new, hnew, hall⟩ := hkept.since
  refine ⟨result, after, rfl, ?_, hgone, ?_, hcaused⟩
  · intro y bytes hbytes
    rcases hkept.now with hsame | hcopied
    · exact .inl ((contents_of_shape (congrArg (Option.map Entry.shape) (hsame y))).trans hbytes)
    · exact .inr ((contents_of_shape (hcopied y)).trans hbytes)
  · intro v hv ⟨y, hy⟩
    have hmem : v ∈ new := by
      rwa [hnew, Exposed.start, List.append_nil] at hv
    rcases hall v hmem with hsame | hcopied
    · exact absurd (hsame y) hy
    · exact hcopied

def exposedVisitor : Client ExposedRun :=
  ⟨"v", "h", 4096, ⟨Path.volumeScheme, .root⟩, attributeOracle "h", .root⟩

/-- The native attempt fails, and after the copy the delete of the directory. -/
theorem shelf_outlasts_failures : ∃ result after,
    ended (exposedVisitor.rename (.ofNames ["a"]) (.ofNames ["b"])) (.start shelf fun i =>
      if i = 3 ∨ i = 22 then some ⟨.backend "offline", .bare .other⟩ else none) =
      (result, after) ∧
    (after.world.volume.contents? ⟨["a", "f"]⟩ = some [1, 2, 3] ∨
      after.world.volume.contents? ⟨["b", "f"]⟩ = some [1, 2, 3]) := by
  have ha : (Path.ofNames ["a"]).Normal := Path.leads_names.2 (by decide)
  have hb : (Path.ofNames ["b"]).Normal := Path.leads_names.2 (by decide)
  have htarget : (outcome ((tree : Tree Run).placeIn (.ofNames ["a"]) (.ofNames ["b"])) shelf).1 =
      .ok (.ofNames ["b"]) := rfl
  obtain ⟨result, after, hrun, hfiles, -⟩ := rename_loses_nothing (c := exposedVisitor)
    visitor_reached shelf_reachable
    (fun i => if i = 3 ∨ i = 22 then some ⟨.backend "offline", .bare .other⟩ else none)
    ha hb rfl rfl (by decide) htarget (by decide)
  exact ⟨result, after, hrun, hfiles ["f"] [1, 2, 3] rfl⟩

end Client

end VolumeFS
