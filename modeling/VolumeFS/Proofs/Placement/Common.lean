import Mathlib.Data.List.Forall2
import VolumeFS.Proofs.Placement.Replica

/-!
# Bricks common to all hints

A host may hold several bricks of one file. A brick file that every hint has on
this host could be read in place of the file, but only the first brick on this
host is asked of each hint, and the answer is a path only where these first ones
agree. So whatever is found is common to all hints, and what is common is found
where no hint has two paths on this host; elsewhere the order of the bricks
decides which of the common paths is found, and whether one is.
-/

set_option autoImplicit false

namespace VolumeFS

theorem Brick.FirstHere.unique {here file other : String} {bricks : List Brick}
    (h : FirstHere here file bricks) (h' : FirstHere here other bricks) : file = other := by
  obtain ⟨b, hb, hpath⟩ := find?_iff.2 h
  obtain ⟨c, hc, hother⟩ := find?_iff.2 h'
  rw [hb] at hc
  cases hc
  rw [← hpath, ← hother]

namespace Hint

def Offers (here file : String) (h : Hint) : Prop :=
  ∃ b ∈ h.replicas, b.path = file ∧ Host.isSame b.host here = true

def Common (here file : String) (hints : List Hint) : Prop := ∀ h ∈ hints, h.Offers here file

instance (here file : String) (hints : List Hint) : Decidable (Common here file hints) :=
  inferInstanceAs (Decidable (∀ h ∈ hints, ∃ b ∈ h.replicas, _ ∧ _))

def OneFile (here : String) (h : Hint) : Prop :=
  ∀ b ∈ h.replicas, ∀ c ∈ h.replicas,
    Host.isSame b.host here = true → Host.isSame c.host here = true → b.path = c.path

instance (here : String) (h : Hint) : Decidable (OneFile here h) :=
  inferInstanceAs (Decidable (∀ b ∈ h.replicas, ∀ c ∈ h.replicas, _ → _ → _))

structure Reordered (h g : Hint) : Prop where
  offset : g.offset = h.offset
  length : g.length = h.length
  replicas : g.replicas.Perm h.replicas

section Offers

variable {here file : String} {h g : Hint}

theorem Offers.first (ho : h.Offers here file) :
    ∃ first, Brick.FirstHere here first h.replicas := by
  obtain ⟨b, hb, -, hsame⟩ := ho
  cases hfind : h.replicas.find? (Host.isSame ·.host here) with
  | none => exact absurd hsame (List.find?_eq_none.1 hfind b hb)
  | some c => exact ⟨c.path, Brick.find?_iff.1 ⟨c, hfind, rfl⟩⟩

theorem Reordered.offers (hr : Reordered h g) (ho : h.Offers here file) : g.Offers here file := by
  obtain ⟨b, hb, hfile⟩ := ho
  exact ⟨b, hr.replicas.mem_iff.2 hb, hfile⟩

theorem Reordered.oneFile (hr : Reordered h g) (hone : h.OneFile here) : g.OneFile here :=
  fun b hb c hc => hone b (hr.replicas.mem_iff.1 hb) c (hr.replicas.mem_iff.1 hc)

/-- The brick with the path may be put before the others. -/
theorem Offers.put_first (ho : h.Offers here file) :
    ∃ g, Reordered h g ∧ Brick.FirstHere here file g.replicas := by
  obtain ⟨b, hb, hpath, hsame⟩ := ho
  refine ⟨{ h with replicas := b :: h.replicas.erase b }, ⟨rfl, rfl, (List.perm_cons_erase hb).symm⟩,
    [], b, h.replicas.erase b, rfl, ?_, hsame, hpath⟩
  exact fun _ hmem => (List.not_mem_nil hmem).elim

theorem OneFile.first (hone : h.OneFile here) (ho : h.Offers here file) :
    Brick.FirstHere here file h.replicas := by
  obtain ⟨first, hfirst⟩ := ho.first
  obtain ⟨b, hb, rfl, hsame⟩ := ho
  obtain ⟨c, hc, rfl, hsame'⟩ := hfirst.present
  rwa [hone b hb c hc hsame hsame']

end Offers

section Common

variable {here file : String} {hints : List Hint}

theorem localReplica?_common (h : localReplica? here hints = some file) :
    Common here file hints :=
  fun g hg => ((localReplica?_eq_some.1 h).2 g hg).present

/-- Where a path is common to all hints, none is found just if two first bricks differ. -/
theorem localReplica?_eq_none (hne : hints ≠ []) (hcommon : Common here file hints) :
    localReplica? here hints = none ↔ ∃ g ∈ hints, ∃ h ∈ hints, ∃ one other, one ≠ other ∧
      Brick.FirstHere here one g.replicas ∧ Brick.FirstHere here other h.replicas := by
  constructor
  · intro hnone
    obtain ⟨g, rest, rfl⟩ := List.exists_cons_of_ne_nil hne
    obtain ⟨one, hone⟩ := (hcommon g List.mem_cons_self).first
    by_contra hagree
    have hall : ∀ h ∈ g :: rest, Brick.FirstHere here one h.replicas := by
      intro h hh
      obtain ⟨other, hother⟩ := (hcommon h hh).first
      by_contra hfirst
      refine hagree ⟨g, List.mem_cons_self, h, hh, one, other, ?_, hone, hother⟩
      rintro rfl
      exact hfirst hother
    rw [localReplica?_eq_some.2 ⟨hne, hall⟩] at hnone
    cases hnone
  · rintro ⟨g, hg, h, hh, one, other, hdiffer, hone, hother⟩
    cases hlocal : localReplica? here hints with
    | none => rfl
    | some found =>
      obtain ⟨-, hfirst⟩ := localReplica?_eq_some.1 hlocal
      exact absurd ((hone.unique (hfirst g hg)).trans ((hfirst h hh).unique hother)) hdiffer

section Order

variable {others : List Hint} (hothers : List.Forall₂ Reordered hints others)

include hothers

theorem reordered_ne (hne : hints ≠ []) : others ≠ [] := by
  rintro rfl
  cases hothers
  exact hne rfl

theorem reordered_each {P : Hint → Prop} (hkeep : ∀ h g, Reordered h g → P h → P g)
    (hall : ∀ h ∈ hints, P h) : ∀ g ∈ others, P g := by
  induction hothers with
  | nil => exact hall
  | cons hr _ ih =>
    obtain ⟨hfirst, hrest⟩ := List.forall_mem_cons.1 hall
    exact List.forall_mem_cons.2 ⟨hkeep _ _ hr hfirst, ih hrest⟩

end Order

/-- Each hint may have its brick with a common path before the others. -/
theorem Common.put_first (hcommon : Common here file hints) :
    ∃ others, List.Forall₂ Reordered hints others ∧
      ∀ g ∈ others, Brick.FirstHere here file g.replicas := by
  induction hints with
  | nil => exact ⟨[], .nil, fun _ hmem => (List.not_mem_nil hmem).elim⟩
  | cons h hints ih =>
    obtain ⟨hoffers, hcommon⟩ := List.forall_mem_cons.1 hcommon
    obtain ⟨g, hg, hfirst⟩ := hoffers.put_first
    obtain ⟨others, hothers, hrest⟩ := ih hcommon
    exact ⟨g :: others, .cons hg hothers, List.forall_mem_cons.2 ⟨hfirst, hrest⟩⟩

/-- Where no hint has two paths on this host, a common path is found in any order. -/
theorem Common.found (hne : hints ≠ []) (hcommon : Common here file hints)
    (hone : ∀ h ∈ hints, h.OneFile here) : localReplica? here hints = some file :=
  localReplica?_eq_some.2 ⟨hne, fun h hh => (hone h hh).first (hcommon h hh)⟩

end Common

/-- What is found is common to all hints. Of what is common to all hints each path is found in some
order of their bricks, none is where two hints have different paths first, and order does not matter
where no hint has two paths on this host. -/
theorem common_found (here : String) {hints : List Hint} (hne : hints ≠ []) :
    (∀ file, localReplica? here hints = some file → Common here file hints) ∧
    ∀ file, Common here file hints →
      (localReplica? here hints = none ↔ ∃ g ∈ hints, ∃ h ∈ hints, ∃ one other, one ≠ other ∧
        Brick.FirstHere here one g.replicas ∧ Brick.FirstHere here other h.replicas) ∧
      (∃ others, List.Forall₂ Reordered hints others ∧ localReplica? here others = some file) ∧
      ((∀ h ∈ hints, h.OneFile here) → ∀ others, List.Forall₂ Reordered hints others →
        localReplica? here others = some file) := by
  refine ⟨fun file => localReplica?_common, fun file hcommon =>
    ⟨localReplica?_eq_none hne hcommon, ?_, fun hone others hothers => ?_⟩⟩
  · obtain ⟨others, hothers, hfirst⟩ := hcommon.put_first
    exact ⟨others, hothers, localReplica?_eq_some.2 ⟨reordered_ne hothers hne, hfirst⟩⟩
  · have hcommon' : Common here file others :=
      reordered_each hothers (fun _ _ hr => hr.offers) hcommon
    exact hcommon'.found (reordered_ne hothers hne)
      (reordered_each hothers (fun _ _ hr => hr.oneFile) hone)

def paired : List Hint :=
  [⟨0, 4, [⟨"h2", "/b2", "/b2/f"⟩, ⟨"h1.example.com", "/b1", "/b1/f"⟩]⟩,
    ⟨4, 4, [⟨"H1", "/b1", "/b1/f"⟩, ⟨"h3", "/b3", "/b3/f"⟩]⟩]

theorem paired_found :
    paired ≠ [] ∧ Common "h1" "/b1/f" paired ∧ (∀ h ∈ paired, h.OneFile "h1") ∧
    ∀ others, List.Forall₂ Reordered paired others → localReplica? "h1" others = some "/b1/f" := by
  have hne : paired ≠ [] := List.cons_ne_nil _ _
  have hcommon : Common "h1" "/b1/f" paired := by decide +kernel
  have hone : ∀ h ∈ paired, h.OneFile "h1" := by decide +kernel
  obtain ⟨-, hfound⟩ := common_found "h1" hne
  exact ⟨hne, hcommon, hone, (hfound _ hcommon).2.2 hone⟩

end Hint

def crossing : String :=
  "(<STRIPE:s:[4]> (<REPLICATE:r0> <POSIX(/b1):h1:/b1/f> <POSIX(/b2):h1:/b2/f>) " ++
    "(<REPLICATE:r1> <POSIX(/b2):h1:/b2/f> <POSIX(/b3):h2:/b3/f>))"

def crossed : Placement :=
  ⟨[[⟨"h1", "/b1", "/b1/f"⟩, ⟨"h1", "/b2", "/b2/f"⟩],
    [⟨"h1", "/b2", "/b2/f"⟩, ⟨"h2", "/b3", "/b3/f"⟩]], some 4, List.cons_ne_nil _ _⟩

theorem parse_crossing : Placement.parse crossing = .ok crossed :=
  Placement.parse_found (by decide +kernel)

/-- A brick file that both chunks have on this host is not found, as another brick of the host comes
before it in the first chunk; with the two bricks in the other order it is found. -/
theorem common_overlooked : ∃ hints,
    outcome ((Oracle.ofAttribute (fun _ => pure (some crossing)) "h1").quickRead "/f" 0 8) board =
      (.ok (some hints), board) ∧
    Hint.Common "h1" "/b2/f" hints ∧ Hint.localReplica? "h1" hints = none ∧
    Hint.localReplica? "h1"
      [⟨0, 4, [⟨"h1", "/b2", "/b2/f"⟩, ⟨"h1", "/b1", "/b1/f"⟩]⟩,
        ⟨4, 4, [⟨"h1", "/b2", "/b2/f"⟩, ⟨"h2", "/b3", "/b3/f"⟩]⟩] = some "/b2/f" :=
  ⟨_, Oracle.quickRead_outcome parse_crossing rfl 0 8, by decide +kernel, by decide +kernel,
    by decide +kernel⟩

end VolumeFS
