import VolumeFS.Proofs.Client.Faults
import VolumeFS.Proofs.Client.Ownership
import VolumeFS.Proofs.Numeral

/-!
# What an owner is set to

An owner or a group is asked for by a number or by a name. A number of 64 bits
is taken as it is written and anything else is looked up by a command, before
the volume is touched. An id has 32 bits. A negative number keeps the old one,
whichever it is, and of a number that is too large only the lowest 32 bits are
stored.
-/

set_option autoImplicit false

namespace VolumeFS

open Volume

namespace Volume

theorem chosenId_negative {n : Int} (h : n < 0) (old : UInt32) : chosenId old n = old :=
  if_pos h

theorem chosenId_number {n : Int} (h : 0 ≤ n) (old : UInt32) :
    ((chosenId old n).toNat : Int) = n % 4294967296 := by
  rw [chosenId, if_neg (by omega), UInt32.toNat_ofNat']
  omega

/-- A number that was an id before is stored as it is. -/
theorem chosenId_id (old id : UInt32) : chosenId old (id.toNat : Int) = id := by
  rw [chosenId, if_neg (by omega), Int.toNat_natCast, UInt32.ofNat_toNat]

end Volume

namespace Client

def IsNumber (s : String) : Prop := ∃ n, Text.integer? s = some n ∧ Text.isInt64 n = true

theorem isNumber_iff {s : String} : IsNumber s ↔ ∃ n, Text.int64? s = some n := by
  simp only [IsNumber, Text.int64?_eq_filter, Option.filter_eq_some_iff]

/-- What a side of the ownership is set to, in a world in which `look` finds the id of a name. -/
structure SetTo (look : String → ExceptT Fault Run UInt32) (w : World) (asked : Option String)
    (old new : UInt32) : Prop where
  unasked : asked = none → new = old
  negative : ∀ s n, asked = some s → Text.integer? s = some n → Text.isInt64 n = true → n < 0 →
    new = old
  number : ∀ s n, asked = some s → Text.integer? s = some n → Text.isInt64 n = true → 0 ≤ n →
    (new.toNat : Int) = n % 4294967296
  named : ∀ s, asked = some s → ¬ IsNumber s → (outcome (look s) w).1 = .ok new

def Unfound (look : String → ExceptT Fault Run UInt32) (w : World) (asked : Option String)
    (fault : Fault) : Prop :=
  ∃ s, asked = some s ∧ ¬ IsNumber s ∧ (outcome (look s) w).1 = .error fault

section Side

/-- The number of a side: the one that is asked for, or the one that is there. -/
def numberOf (number : String → ExceptT Fault Run Int) (old : UInt32) :
    Option String → ExceptT Fault Run Int
  | some s => number s
  | none => pure (old.toNat : Int)

structure Reads (look : String → ExceptT Fault Run UInt32)
    (number : String → ExceptT Fault Run Int) : Prop where
  written : ∀ s n, Text.int64? s = some n → number s = pure n
  named : ∀ s, Text.int64? s = none → number s = do return ((← look s).toNat : Int)

theorem reads_userId : Reads Shell.userId userId where
  written s n h := by rw [userId, h]
  named s h := by rw [userId, h]

theorem reads_groupId : Reads Shell.groupId groupId where
  written s n h := by rw [groupId, h]
  named s h := by rw [groupId, h]

theorem looks_numberOf {number : String → ExceptT Fault Run Int} (h : ∀ s, Looks (number s))
    (old : UInt32) (asked : Option String) : Looks (numberOf number old asked) := by
  cases asked with
  | none => exact looks_pure _
  | some s => exact h s

variable {look : String → ExceptT Fault Run UInt32} {number : String → ExceptT Fault Run Int}
  (h : Reads look number)

/-- The id that comes of a number of 64 bits. -/
theorem setTo_number (look : String → ExceptT Fault Run UInt32) (w : World) {s : String} {n : Int}
    (hn : Text.int64? s = some n) (old : UInt32) :
    SetTo look w (some s) old (chosenId old n) := by
  rw [Text.int64?_eq_filter, Option.filter_eq_some_iff] at hn
  obtain ⟨hn, hrange⟩ := hn
  refine ⟨nofun, ?_, ?_, ?_⟩
  · rintro _ k ⟨⟩ hk - hneg
    obtain rfl : n = k := Option.some.inj (hn.symm.trans hk)
    exact chosenId_negative hneg old
  · rintro _ k ⟨⟩ hk - hpos
    obtain rfl : n = k := Option.some.inj (hn.symm.trans hk)
    exact chosenId_number hpos old
  · rintro _ ⟨⟩ hname
    exact absurd ⟨n, hn, hrange⟩ hname

/-- The id that was found for a name. -/
theorem setTo_name {w : World} {s : String} (hs : ¬ IsNumber s) {id : UInt32}
    (hid : (outcome (look s) w).1 = .ok id) (old : UInt32) :
    SetTo look w (some s) old (chosenId old (id.toNat : Int)) := by
  refine ⟨nofun, ?_, ?_, ?_⟩
  · rintro _ k ⟨⟩ hk hrange -
    exact absurd ⟨k, hk, hrange⟩ hs
  · rintro _ k ⟨⟩ hk hrange -
    exact absurd ⟨k, hk, hrange⟩ hs
  · rintro _ ⟨⟩ -
    rw [chosenId_id]
    exact hid

include h in
/-- A side has a number, unless it is asked for by a name that is not found. -/
theorem numberOf_cases (asked : Option String) (old : UInt32) (w : World) :
    (∃ n w', outcome (numberOf number old asked) w = (.ok n, w') ∧
      SetTo look w asked old (chosenId old n)) ∨
    ∃ fault w', outcome (numberOf number old asked) w = (.error fault, w') ∧
      Unfound look w asked fault := by
  cases asked with
  | none =>
    refine .inl ⟨_, w, rfl, fun _ => chosenId_id old old, nofun, nofun, nofun⟩
  | some s =>
    cases hs : Text.int64? s with
    | some n =>
      refine .inl ⟨n, w, ?_, setTo_number look w hs old⟩
      rw [numberOf, h.written s n hs]
      rfl
    | none =>
      have hname : ¬ IsNumber s := by
        rw [isNumber_iff, hs]
        exact nofun
      rw [numberOf, h.named s hs, outcome_bind]
      rcases hlook : outcome (look s) w with ⟨fault | id, w'⟩
      · exact .inr ⟨fault, w', rfl, s, rfl, hname, congrArg Prod.fst hlook⟩
      · exact .inl ⟨_, w', rfl, setTo_name hname (congrArg Prod.fst hlook) old⟩

end Side

variable {c : Client Run} {w : World} {path p : Path} {e : Entry} {owner group : Option String}

/-- Both sides are looked up before the entry is changed. -/
theorem setOwner_outcome (hp : c.resolver.resolve path = .ok p)
    (he : w.volume.find? (key p) = some e) (hone : owner ≠ none ∨ group ≠ none) :
    outcome (c.setOwner path owner group) w =
      outcome (do
        let uid ← numberOf userId e.uid owner
        let gid ← numberOf groupId e.gid group
        VolumeAccess.chown (key p) uid gid) w := by
  have hresolve : outcome (c.resolve path) w = (.ok p, w) := by
    rw [resolve, hp]
    rfl
  have hstat : outcome (Volume.requireStat (key p)) w = (.ok e.stat, w) := by
    rw [outcome_requireStat, stat?, he]
    rfl
  unfold setOwner
  rw [if_neg (by cases owner <;> cases group <;> simp_all), outcome_bind_ok hresolve,
    outcome_bind_ok hstat]
  cases owner <;> cases group <;> rfl

def ownerKnown (e : Entry) (owner : Option String) (w : World) : World :=
  (outcome (numberOf userId e.uid owner) w).2

theorem chown_found (he : w.volume.find? (key p) = some e) (uid gid : Int) :
    outcome (VolumeAccess.chown (key p) uid gid) w =
      (.ok (), { w with
        volume := w.volume.put (key p)
          { e with uid := chosenId e.uid uid, gid := chosenId e.gid gid } }) :=
  outcome_update_ok (alter_found he _)

/-- The call fails just if a side is asked for by a name that is not found, and then it changes
nothing. Else it sets both sides of the one entry. -/
theorem setOwner_sets (hp : c.resolver.resolve path = .ok p)
    (he : w.volume.find? (key p) = some e) (hone : owner ≠ none ∨ group ≠ none) :
    (∃ fault w', outcome (c.setOwner path owner group) w = (.error fault, w') ∧
      w'.volume = w.volume ∧
      (Unfound Shell.userId w owner fault ∨
        Unfound Shell.groupId (ownerKnown e owner w) group fault)) ∨
    ∃ uid gid w', outcome (c.setOwner path owner group) w = (.ok (), w') ∧
      w'.volume.find? (key p) = some { e with uid, gid } ∧
      (∀ k, k ≠ key p → w'.volume.find? k = w.volume.find? k) ∧
      SetTo Shell.userId w owner e.uid uid ∧
      SetTo Shell.groupId (ownerKnown e owner w) group e.gid gid := by
  have hkeep := looks_numberOf looks_userId e.uid owner w
  have hkeep₁ := looks_numberOf looks_groupId e.gid group (ownerKnown e owner w)
  rw [setOwner_outcome hp he hone, outcome_bind]
  obtain ⟨uid, w₁, huid, hset⟩ | ⟨fault, w₁, huid, hfault⟩ :=
    numberOf_cases reads_userId owner e.uid w
  · unfold ownerKnown at hkeep₁ ⊢
    rw [huid] at hkeep hkeep₁ ⊢
    dsimp only at hkeep hkeep₁ ⊢
    rw [outcome_bind]
    obtain ⟨gid, w₂, hgid, hset₁⟩ | ⟨fault, w₂, hgid, hfault⟩ :=
      numberOf_cases reads_groupId group e.gid w₁
    · rw [hgid] at hkeep₁ ⊢
      have hvolume : w₂.volume = w.volume := hkeep₁.trans hkeep
      dsimp only
      rw [chown_found (by rw [hvolume, he])]
      refine .inr ⟨_, _, _, rfl, find?_put_self _ _ _, fun k hk => ?_, hset, hset₁⟩
      rw [← hvolume]
      exact find?_put_of_ne hk _ _
    · rw [hgid] at hkeep₁ ⊢
      exact .inl ⟨fault, w₂, rfl, hkeep₁.trans hkeep, .inr hfault⟩
  · rw [huid] at hkeep ⊢
    exact .inl ⟨fault, w₁, rfl, hkeep, .inl hfault⟩

/-- The directory is given to another user and stays with its group. -/
theorem estate_given : ∃ w', outcome (visitor.setOwner (.ofNames ["a"]) (some "100") none) estate =
      (.ok (), w') ∧ w'.volume.find? ⟨["a"]⟩ = some ⟨.directory, 0o755, 100, 8⟩ := by
  have hp : visitor.resolver.resolve (.ofNames ["a"]) = .ok (.ofNames ["a"]) := rfl
  have he : estate.volume.find? (key (.ofNames ["a"])) = some ⟨.directory, 0o755, 7, 8⟩ := rfl
  have hone : some "100" ≠ none ∨ (none : Option String) ≠ none := .inl nofun
  have hn : Text.integer? "100" = some 100 := by decide
  have hnumber : IsNumber "100" := ⟨100, hn, by decide⟩
  obtain ⟨fault, w', -, -, hfault⟩ | ⟨uid, gid, w', hrun, hfind, -, huid, hgid⟩ :=
    setOwner_sets hp he hone
  · obtain ⟨s, ⟨⟩, hs, -⟩ | ⟨s, ⟨⟩, -⟩ := hfault
    exact absurd hnumber hs
  · have hid : uid = 100 := by
      have hid := huid.number "100" 100 rfl hn (by decide) (by decide)
      have hnat : uid.toNat = (100 : UInt32).toNat := by
        simp only [UInt32.reduceToNat]
        omega
      exact UInt32.toNat_inj.1 hnat
    obtain rfl : gid = 8 := hgid.unasked rfl
    subst hid
    exact ⟨w', hrun, hfind⟩

/-- A number that is too large makes the directory that of user 0, and a number below -1 is taken
without any change. -/
theorem estate_taken_over : ∃ large small : Int,
    Text.integer? "4294967296" = some large ∧ Text.integer? "-2" = some small ∧
    4294967296 ≤ large ∧ small < -1 ∧
    (∃ w', outcome (visitor.setOwner (.ofNames ["a"]) (some "4294967296") none) estate =
      (.ok (), w') ∧ w'.volume.find? ⟨["a"]⟩ = some ⟨.directory, 0o755, 0, 8⟩) ∧
    ∃ w', outcome (visitor.setOwner (.ofNames ["a"]) (some "-2") none) estate = (.ok (), w') ∧
      w'.volume.find? ⟨["a"]⟩ = some ⟨.directory, 0o755, 7, 8⟩ :=
  ⟨4294967296, -2, by decide, by decide, by decide, by decide, ⟨_, rfl, rfl⟩, ⟨_, rfl, rfl⟩⟩

end Client

end VolumeFS
