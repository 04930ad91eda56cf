import Mathlib.Data.List.Basic
import VolumeFS.Placement.Hint
import VolumeFS.Proofs.Placement.Scan

/-!
# Groups of bricks

The bricks of a placement are those that its text names, in the order of the
text, whatever else stands there. A group of more than one brick stands between
a tag of replicas and the next such tag; depth of parentheses only decides how
early a group ends, so no parenthesis too many or too few loses a brick.
-/

set_option autoImplicit false

namespace VolumeFS.Placement

def Token.named? : Token → Option Brick
  | .brick b => some b
  | _ => none

def bricksOf (tokens : List Token) : List Brick :=
  tokens.filterMap Token.named?

@[simp] theorem bricksOf_nil : bricksOf [] = [] := rfl

@[simp] theorem bricksOf_brick (b : Brick) (tokens : List Token) :
    bricksOf (.brick b :: tokens) = b :: bricksOf tokens := rfl

@[simp] theorem bricksOf_replicate (tokens : List Token) :
    bricksOf (.replicate :: tokens) = bricksOf tokens := rfl

@[simp] theorem bricksOf_other {t : Token} (h : t.named? = none) (tokens : List Token) :
    bricksOf (t :: tokens) = bricksOf tokens :=
  List.filterMap_cons_none h

@[simp] theorem bricksOf_append (tokens more : List Token) :
    bricksOf (tokens ++ more) = bricksOf tokens ++ bricksOf more :=
  List.filterMap_append

/-- Tokens in groups: a brick is a group of its own, or the bricks after a tag of replicas are one,
as long as there is no other such tag. -/
inductive Grouped : List Token → List (List Brick) → Prop
  | nil : Grouped [] []
  | skip {tokens : List Token} {groups : List (List Brick)} {t : Token} :
      Grouped tokens groups → t.named? = none → Grouped (tokens ++ [t]) groups
  | single {tokens : List Token} {groups : List (List Brick)} {b : Brick} :
      Grouped tokens groups → Grouped (tokens ++ [.brick b]) (groups ++ [[b]])
  | gather {tokens among : List Token} {groups : List (List Brick)} :
      Grouped tokens groups → .replicate ∉ among → bricksOf among ≠ [] →
      Grouped (tokens ++ .replicate :: among) (groups ++ [bricksOf among])

/-- The group of this number consists of the bricks after one tag of replicas, with no other such
tag between them, and the bricks before the tag are those of the groups before. -/
def Gathered (tokens : List Token) (groups : List (List Brick)) (i : Nat) : Prop :=
  ∃ before among after, tokens = before ++ .replicate :: (among ++ after) ∧
    .replicate ∉ among ∧ bricksOf before = (groups.take i).flatten ∧
    groups[i]? = some (bricksOf among)

theorem Gathered.extend {tokens : List Token} {groups : List (List Brick)} {i : Nat}
    (h : Gathered tokens groups i) (more : List Token) (others : List (List Brick)) :
    Gathered (tokens ++ more) (groups ++ others) i := by
  obtain ⟨before, among, after, rfl, hnone, hbefore, hgroup⟩ := h
  obtain ⟨hi, -⟩ := List.getElem?_eq_some_iff.mp hgroup
  refine ⟨before, among, after ++ more, by simp, hnone, ?_, ?_⟩
  · rw [hbefore, List.take_append_of_le_length (by omega)]
  · rw [List.getElem?_append_left hi, hgroup]

namespace Grouped

variable {tokens : List Token} {groups : List (List Brick)} (h : Grouped tokens groups)

include h

theorem skips {more : List Token} (hmore : bricksOf more = []) :
    Grouped (tokens ++ more) groups := by
  induction more generalizing tokens with
  | nil => rwa [List.append_nil]
  | cons t more ih =>
    have hnamed : t.named? = none ∧ bricksOf more = [] := by
      simpa [bricksOf] using hmore
    rw [show tokens ++ t :: more = tokens ++ [t] ++ more by simp]
    exact ih (h.skip hnamed.1) hnamed.2

theorem flatten : groups.flatten = bricksOf tokens := by
  induction h with
  | nil => rfl
  | skip _ ht ih => simp [ih, ht]
  | single _ ih => simp [ih]
  | gather _ _ _ ih => simp [ih]

theorem filled : ∀ group ∈ groups, group ≠ [] := by
  induction h with
  | nil => simp
  | skip _ _ ih => exact ih
  | single _ ih => simpa [or_imp, forall_and] using ih
  | gather _ _ hne ih => simpa [or_imp, forall_and] using ⟨ih, hne⟩

theorem gathered {i : Nat} {group : List Brick} (hgroup : groups[i]? = some group)
    (hmany : 1 < group.length) : Gathered tokens groups i := by
  induction h with
  | nil => simp at hgroup
  | skip _ _ ih =>
    simpa using (ih hgroup).extend [_] []
  | @single tokens groups b _ ih =>
    by_cases hi : i < groups.length
    · rw [List.getElem?_append_left hi] at hgroup
      exact (ih hgroup).extend _ _
    · rw [List.getElem?_append_right (by omega), List.getElem?_singleton] at hgroup
      split_ifs at hgroup
      cases hgroup
      simp at hmany
  | @gather tokens among groups hbefore hnone _ ih =>
    by_cases hi : i < groups.length
    · rw [List.getElem?_append_left hi] at hgroup
      exact (ih hgroup).extend _ _
    · rw [List.getElem?_append_right (by omega), List.getElem?_singleton] at hgroup
      split_ifs at hgroup with h0
      have hlast : i = groups.length := by omega
      refine ⟨tokens, among, [], by simp, hnone, ?_, ?_⟩
      · rw [hlast, List.take_left, hbefore.flatten]
      · rw [hlast, List.getElem?_concat_length]

end Grouped

namespace Assembly

/-- What the placement under construction holds of the tokens read so far. -/
inductive Tracks : Assembly → List Token → Prop
  | between {depth : Nat} {groups : List (List Brick)} {size : Option UInt64}
      {tokens : List Token} :
      Grouped tokens groups.reverse → Tracks ⟨depth, none, groups, size⟩ tokens
  | within {depth opened : Nat} {bricks : List Brick} {groups : List (List Brick)}
      {size : Option UInt64} {before among : List Token} :
      Grouped before groups.reverse → .replicate ∉ among → bricksOf among = bricks.reverse →
      Tracks ⟨depth, some (opened, bricks), groups, size⟩ (before ++ .replicate :: among)

variable {a : Assembly} {tokens : List Token}

theorem close_grouped (h : a.Tracks tokens) :
    Grouped tokens a.close.groups.reverse ∧ a.close.current = none := by
  cases h with
  | between h => exact ⟨h, rfl⟩
  | @within _ _ bricks groups _ before among h hnone hamong =>
    refine ⟨?_, rfl⟩
    cases bricks with
    | nil =>
      apply h.skips
      simpa using hamong
    | cons b bricks =>
      have hgroup := h.gather hnone (by rw [hamong]; simp)
      rw [hamong] at hgroup
      simpa [close] using hgroup

theorem close_tracks (h : a.Tracks tokens) : a.close.Tracks tokens := by
  obtain ⟨hgrouped, hcurrent⟩ := close_grouped h
  generalize a.close = closed at hgrouped hcurrent
  cases closed
  cases hcurrent
  exact .between hgrouped

/-- A token that names no brick and begins no group changes neither groups nor the one being
filled. -/
theorem Tracks.skip (h : a.Tracks tokens) {t : Token} (ht : t.named? = none)
    (hnew : t ≠ .replicate) (depth : Nat) (size : Option UInt64) :
    Tracks { a with depth := depth, stripeSize := size } (tokens ++ [t]) := by
  cases h with
  | between h => exact .between (h.skip ht)
  | within h hnone hamong =>
    rw [List.append_assoc, List.cons_append]
    apply Tracks.within h
    · simpa [hnone] using hnew.symm
    · simp [hamong, ht]

theorem step_tracks (h : a.Tracks tokens) (t : Token) : (a.step t).Tracks (tokens ++ [t]) := by
  cases t with
  | opening => exact h.skip rfl (by simp) _ _
  | distribute => exact h.skip rfl (by simp) _ _
  | stripe size =>
    cases size with
    | none => exact h.skip rfl (by simp) _ _
    | some size => exact h.skip rfl (by simp) _ _
  | closing =>
    unfold step
    dsimp only
    split_ifs
    · exact (close_tracks h).skip rfl (by simp) _ _
    · exact h.skip rfl (by simp) _ _
  | replicate =>
    exact .within (close_grouped h).1 (by simp) rfl
  | brick b =>
    cases h with
    | between h =>
      apply Tracks.between
      simpa using h.single
    | within h hnone hamong =>
      rw [List.append_assoc, List.cons_append]
      apply Tracks.within h
      · simpa using hnone
      · simp [hamong]

theorem run_tracks (h : a.Tracks tokens) (more : List Token) :
    (more.foldl step a).Tracks (tokens ++ more) := by
  induction more generalizing a tokens with
  | nil => rwa [List.append_nil]
  | cons t more ih =>
    rw [List.foldl_cons, show tokens ++ t :: more = tokens ++ [t] ++ more by simp]
    exact ih (step_tracks h t)

end Assembly

/-- There is a placement as soon as the tokens name a brick. -/
theorem ofTokens?_grouped (tokens : List Token) :
    (bricksOf tokens = [] → ofTokens? tokens = none) ∧
      (bricksOf tokens ≠ [] → ∃ p, ofTokens? tokens = some p ∧ Grouped tokens p.groups) := by
  have hstart : Assembly.empty.Tracks [] := .between .nil
  have hgrouped := (Assembly.close_grouped (Assembly.run_tracks hstart tokens)).1
  rw [List.nil_append] at hgrouped
  unfold ofTokens?
  dsimp only
  split_ifs with hnone
  · refine ⟨fun _ => rfl, fun hsome => ?_⟩
    rw [hnone] at hgrouped
    exact absurd hgrouped.flatten.symm hsome
  · refine ⟨fun hsome => ?_, fun _ => ⟨_, rfl, hgrouped⟩⟩
    obtain ⟨group, rest, hgroups⟩ := List.exists_cons_of_ne_nil hnone
    have hempty := hgrouped.flatten.trans hsome
    have hfilled := hgrouped.filled group (by simp [hgroups])
    rw [hgroups, List.flatten_cons, List.append_eq_nil_iff] at hempty
    exact absurd hempty.1 hfilled

section Hints

variable {p : Placement}

theorem group_mem (p : Placement) (chunk : Nat) : p.group chunk ∈ p.groups :=
  List.get_mem _ _

theorem chunkHints_group {size : UInt64} (hsize : size ≠ 0) (start stop chunk : UInt64) :
    ∀ h ∈ p.chunkHints size hsize start stop chunk, h.replicas ∈ p.groups := by
  fun_induction Placement.chunkHints p size hsize start stop chunk with
  | case1 chunk hmore next ih => exact List.forall_mem_cons.mpr ⟨p.group_mem _, ih⟩
  | case2 chunk hend => exact List.forall_mem_singleton.mpr (p.group_mem _)

/-- With no group empty, no hint is without bricks. -/
theorem hints_filled (h : ∀ group ∈ p.groups, group ≠ []) (start length : UInt64) :
    ∀ hint ∈ p.hints start length, hint.replicas ≠ [] := by
  unfold hints
  split
  · obtain ⟨group, rest, hgroups⟩ := List.exists_cons_of_ne_nil p.named
    have hgroup := h group (by simp [hgroups])
    simp [hgroups, hgroup]
  · intro hint hmem
    exact h _ (chunkHints_group _ _ _ _ hint hmem)

end Hints

section Replication

theorem foldl_largest (groups : List (List Brick)) (start : Nat) :
    let largest := groups.foldl (fun size group => max size group.length) start
    start ≤ largest ∧ (∀ group ∈ groups, group.length ≤ largest) ∧
      (largest = start ∨ ∃ group ∈ groups, largest = group.length) := by
  induction groups generalizing start with
  | nil => simp
  | cons first groups ih =>
    obtain ⟨hstart, hgroups, hreached⟩ := ih (max start first.length)
    rw [List.foldl_cons]
    refine ⟨by omega, List.forall_mem_cons.mpr ⟨by omega, hgroups⟩, ?_⟩
    rcases hreached with hreached | ⟨group, hmem, hreached⟩
    · rcases Nat.le_total first.length start with hle | hle
      · exact .inl (by omega)
      · exact .inr ⟨first, List.mem_cons_self, by omega⟩
    · exact .inr ⟨group, List.mem_cons_of_mem _ hmem, hreached⟩

/-- The number of copies is the size of the largest group, as far as it is a number of 16 bits. -/
theorem replication_largest {p : Placement} (h : ∀ group ∈ p.groups, group ≠ []) :
    ∃ largest ∈ p.groups, (∀ group ∈ p.groups, group.length ≤ largest.length) ∧
      p.replication.toNat = min largest.length 65535 := by
  obtain ⟨hone, hgroups, hreached⟩ := foldl_largest p.groups 1
  have hword : ∀ n, (UInt16.ofNat (min n 65535)).toNat = min n 65535 := fun n =>
    UInt16.toNat_ofNat_of_lt' (by show min n 65535 < 65536; omega)
  unfold replication
  dsimp only at hone hgroups hreached ⊢
  generalize p.groups.foldl (fun size group => max size group.length) 1 = largest at *
  rw [hword]
  rcases hreached with hreached | ⟨group, hmem, hreached⟩
  · -- Every group has one brick then.
    obtain ⟨group, rest, hsome⟩ := List.exists_cons_of_ne_nil p.named
    have hmem : group ∈ p.groups := by simp [hsome]
    have hpos := List.length_pos_iff.mpr (h group hmem)
    have hle := hgroups group hmem
    refine ⟨group, hmem, fun other hother => ?_, by omega⟩
    have := hgroups other hother
    omega
  · refine ⟨group, hmem, fun other hother => ?_, by omega⟩
    have := hgroups other hother
    omega

end Replication

/-- A text is read exactly when it names a brick. Its bricks are then those of the groups, one after
the other; no group and no hint is empty, and bricks are in one group only if they follow one tag of
replicas and there is no other such tag between them. -/
theorem parse_keeps_bricks (value : String) :
    ∃ tokens, (∀ other, Token.Scanned value.toList other ↔ other = tokens) ∧
      (bricksOf tokens = [] →
        parse value = .error (.backend s!"no bricks in pathinfo: {value}")) ∧
      (bricksOf tokens ≠ [] → ∃ p, parse value = .ok p ∧
        p.groups.flatten = bricksOf tokens ∧
        (∀ group ∈ p.groups, group ≠ []) ∧
        (∀ start length, ∀ hint ∈ p.hints start length, hint.replicas ≠ []) ∧
        ∀ i group, p.groups[i]? = some group → 1 < group.length →
          Gathered tokens p.groups i) := by
  obtain ⟨hnone, hsome⟩ := ofTokens?_grouped (Token.scan value.toList)
  refine ⟨Token.scan value.toList, fun _ => Token.scanned_iff, fun h => ?_, fun h => ?_⟩
  · rw [parse, hnone h]
  · obtain ⟨p, hp, hgrouped⟩ := hsome h
    refine ⟨p, by rw [parse, hp], hgrouped.flatten, hgrouped.filled, ?_, ?_⟩
    · exact fun start length => hints_filled hgrouped.filled start length
    · exact fun i group hgroup hmany => hgrouped.gathered hgroup hmany

/-- Parentheses that close nothing, an unknown tag, and replicas among replicas. -/
example :
    let text := "))<REPLICATE:a><POSIX(/b):h1:/f><NFS>(<REPLICATE:b><POSIX(/b):h2:>)<POSIX(/b):h3:>"
    (ofTokens? (Token.scan text.toList)).map Placement.groups =
      some [[⟨"h1", "/b", "/f"⟩], [⟨"h2", "/b", ""⟩], [⟨"h3", "/b", ""⟩]] := by
  decide +kernel

end VolumeFS.Placement
