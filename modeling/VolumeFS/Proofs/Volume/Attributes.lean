import VolumeFS.Proofs.Volume.Reachable

/-!
# Attributes and the entries they belong to

Removing an entry removes its attributes, but a rename takes the entries and not
their attributes. Those stay at the keys where they were set, whatever comes to
be at these keys, until they are set anew or an entry is removed there.
-/

set_option autoImplicit false

namespace VolumeFS.Volume

theorem delete_attribute {k k' : Key} {n : String} {v v' : Volume} (h : delete k v = .ok v') :
    v'.attributes.lookup (k', n) = if k' = k then none else v.attributes.lookup (k', n) := by
  have hattributes : v'.attributes = v.attributes.filter fun entry => entry.1.1 ≠ k := by
    unfold delete at h
    split_ifs at h
    · cases h
    · split at h
      · cases h
      · split_ifs at h
        · cases h
        · cases h
          rfl
  rw [hattributes, Table.lookup_lawful, Table.lookup_lawful (k', n)]
  refine (Table.lookup_filter (fun key : Key × String => decide (key.1 ≠ k)) _ _).trans ?_
  by_cases hk : k' = k <;> simp [hk]

theorem rename_attributes {source target : Key} {v v' : Volume}
    (h : rename source target v = .ok v') : v'.attributes = v.attributes := by
  obtain ⟨-, -, -, -, rfl⟩ := rename_ok h
  rfl

theorem attributeOf_found {v : Volume} {k : Key} {e : Entry} (he : v.find? k = some e)
    (n : String) : v.attributeOf k n = .ok (v.attributes.lookup (k, n)) := by
  simp [attributeOf, he]

theorem attributeOf_some {v : Volume} {k : Key} {n value : String} :
    v.attributeOf k n = .ok (some value) ↔
      (∃ e, v.find? k = some e) ∧ v.attributes.lookup (k, n) = some value := by
  cases he : v.find? k with
  | none => simp [attributeOf, he]
  | some e => simp [attributeOf_found he]

theorem calls_append (cs rest : List Call) (s : Use) :
    calls (cs ++ rest) s = calls rest (calls cs s) := by
  induction cs generalizing s with
  | nil => rfl
  | cons call cs ih => exact ih _

def Throughout (P : Call → Volume → Prop) : List Call → Use → Prop
  | [], _ => True
  | call :: rest, s => P call s.world.volume ∧ Throughout P rest (call.step s)

theorem throughout_append {P : Call → Volume → Prop} (cs rest : List Call) (s : Use) :
    Throughout P (cs ++ rest) s ↔ Throughout P cs s ∧ Throughout P rest (calls cs s) := by
  induction cs generalizing s with
  | nil => simp [Throughout, calls]
  | cons call cs ih => simp [Throughout, calls, ih, and_assoc]

def Call.SetsOnEntry : Call → Volume → Prop
  | .setAttribute path _ _, v => ∃ e, v.find? (.ofText path) = some e
  | _, _ => True

/-- The attribute is not set, and no entry is removed at its key. -/
def Call.Leaves (k : Key) (n : String) : Call → Volume → Prop
  | .setAttribute path n' _, _ => ¬ (k = .ofText path ∧ n = n')
  | .delete path, v => k = .ofText path → ∃ fault, Volume.delete k v = .error fault
  | _, _ => True

def Call.Takes (k : Key) : Call → Volume → Prop
  | .rename source target, v =>
    (Key.ofText source).isWithin k ∧ ∃ v', Volume.rename (.ofText source) (.ofText target) v = .ok v'
  | _, _ => False

/-- An entry with the attribute was once moved away from the key, and since then the attribute was
left alone. -/
def LeftBehind (cs : List Call) (s : Use) (k : Key) (n value : String) : Prop :=
  ∃ before call after, cs = before ++ call :: after ∧
    call.Takes k (calls before s).world.volume ∧
    (calls before s).world.volume.attributeOf k n = .ok (some value) ∧
    Throughout (Call.Leaves k n) after (call.step (calls before s))

section Step

variable {call : Call} {v v' : Volume} {k : Key} {n value : String}

theorem Call.Takes.leaves (h : call.Takes k v) : call.Leaves k n v := by
  cases call with
  | rename source target => trivial
  | _ => exact h.elim

theorem Call.Leaves.of_delete {path : String} (hl : (Call.delete path).Leaves k n v)
    (hd : Volume.delete (.ofText path) v = .ok v') : k ≠ .ofText path := by
  rintro rfl
  obtain ⟨fault, hfault⟩ := hl rfl
  rw [hd] at hfault
  cases hfault

theorem Effect.attribute (h : Effect call v v') (hl : call.Leaves k n v) :
    v'.attributes.lookup (k, n) = v.attributes.lookup (k, n) := by
  cases h with
  | quiet _ ha => rw [ha]
  | put k' e _ => rfl
  | delete hd => rw [delete_attribute hd, if_neg (hl.of_delete hd)]
  | rename hr => rw [rename_attributes hr]
  | setAttribute path n' value v =>
    have hother : (k, n) ≠ (Key.ofText path, n') := fun h => hl (Prod.ext_iff.1 h)
    rw [Table.lookup_lawful, Table.lookup_lawful (k, n) v.attributes]
    exact Table.lookup_set_of_ne hother value v.attributes

/-- Where an attribute is left alone, so is the entry, unless it is moved. -/
theorem Effect.entry (hw : v.WellFormed) (h : Effect call v v') (hl : call.Leaves k n v)
    (he : ∃ e, v.find? k = some e) : (∃ e, v'.find? k = some e) ∨ call.Takes k v := by
  obtain ⟨e, he⟩ := he
  cases h with
  | quiet hentries _ => exact .inl ⟨e, by rw [find?, hentries]; exact he⟩
  | put k' e' _ =>
    rw [find?_put]
    by_cases hk : k = k'
    · exact .inl ⟨e', if_pos hk⟩
    · exact .inl ⟨e, by rw [if_neg hk, he]⟩
  | delete hd =>
    obtain ⟨-, -, hentries, -⟩ := delete_ok hd
    refine .inl ⟨e, ?_⟩
    rw [find?, hentries, Table.lookup_erase_of_ne (hl.of_delete hd)]
    exact he
  | @rename source target _ _ hr =>
    obtain ⟨-, hfree, -, -, rfl⟩ := rename_ok hr
    by_cases hs : (Key.ofText source).isWithin k = true
    · exact .inr ⟨hs, _, hr⟩
    have hout : ¬ (Key.ofText target).names <+: k.names := by
      intro ht
      have hnone : v.find? k = none := hw.nothing_within hfree ht
      rw [he] at hnone
      cases hnone
    have hstays := (relocate_layout hw (Key.ofText source).names hfree).elsewhere k.names
      (by simpa [Key.isWithin] using hs) hout
    exact .inl ⟨e, hstays.trans he⟩
  | setAttribute path n' value v => exact .inl ⟨e, he⟩

/-- An attribute that is there after a call was left alone, or it has its entry. -/
theorem step_attribute {s : Use} (hset : call.SetsOnEntry s.world.volume)
    (h : (call.step s).world.volume.attributes.lookup (k, n) = some value) :
    call.Leaves k n s.world.volume ∨ ∃ e, (call.step s).world.volume.find? k = some e := by
  cases call with
  | setAttribute path n' value' =>
    by_cases hk : k = .ofText path ∧ n = n'
    · obtain ⟨rfl, rfl⟩ := hk
      exact .inr hset
    · exact .inl hk
  | delete path =>
    refine .inl ?_
    rintro rfl
    cases hd : delete (.ofText path) s.world.volume with
    | error fault => exact ⟨fault, rfl⟩
    | ok v =>
      have hv : ((Call.delete path).step s).world.volume = v :=
        congrArg (fun r => r.2.volume) (outcome_update_ok hd)
      rw [hv, delete_attribute hd, if_pos rfl] at h
      cases h
  | _ => exact .inl trivial

end Step

def Attached (v : Volume) : Prop :=
  ∀ k n value, v.attributes.lookup (k, n) = some value → ∃ e, v.find? k = some e

section Run

variable {cs : List Call} {s : Use} {k : Key} {n value : String}

theorem throughout_attribute (h : Throughout (Call.Leaves k n) cs s) :
    (calls cs s).world.volume.attributes.lookup (k, n) =
      s.world.volume.attributes.lookup (k, n) := by
  induction cs generalizing s with
  | nil => rfl
  | cons call rest ih => exact (ih h.2).trans ((step_effect call s).attribute h.1)

theorem LeftBehind.attribute (h : LeftBehind cs s k n value) :
    (calls cs s).world.volume.attributes.lookup (k, n) = some value := by
  obtain ⟨before, call, after, rfl, htakes, hthen, hafter⟩ := h
  rw [calls_append]
  calc (calls after (call.step (calls before s))).world.volume.attributes.lookup (k, n)
      = (call.step (calls before s)).world.volume.attributes.lookup (k, n) :=
        throughout_attribute hafter
    _ = (calls before s).world.volume.attributes.lookup (k, n) :=
        (step_effect call _).attribute htakes.leaves
    _ = some value := (attributeOf_some.1 hthen).2

theorem LeftBehind.append {call : Call} (h : LeftBehind cs s k n value)
    (hl : call.Leaves k n (calls cs s).world.volume) :
    LeftBehind (cs ++ [call]) s k n value := by
  obtain ⟨before, call', after, rfl, htakes, hthen, hafter⟩ := h
  refine ⟨before, call', after ++ [call], by simp, htakes, hthen, ?_⟩
  rw [calls_append] at hl
  exact (throughout_append after [call] _).2 ⟨hafter, hl, trivial⟩

variable (hw : s.world.volume.WellFormed) (hs : s.world.volume.Attached)
  (hset : Throughout Call.SetsOnEntry cs s)

include hw hs hset

theorem attribute_entry :
    ∀ k n value, (calls cs s).world.volume.attributes.lookup (k, n) = some value →
      (∃ e, (calls cs s).world.volume.find? k = some e) ∨ LeftBehind cs s k n value := by
  -- The last call is split off, as what was left behind is told by the calls before.
  induction cs using List.reverseRecOn with
  | nil => exact fun k n value h => .inl (hs k n value h)
  | append_singleton cs call ih =>
    intro k n value h
    obtain ⟨hset, hlast, -⟩ := (throughout_append cs [call] s).1 hset
    rw [calls_append] at h ⊢
    obtain hl | hthere := step_attribute hlast h
    · have heffect := step_effect call (calls cs s)
      have hbefore := (heffect.attribute hl).symm.trans h
      obtain hentry | hleft := ih hset k n value hbefore
      · obtain hthere | htakes := heffect.entry (calls_wellFormed cs s hw) hl hentry
        · exact .inl hthere
        · exact .inr ⟨cs, call, [], rfl, htakes, attributeOf_some.2 ⟨hentry, hbefore⟩, trivial⟩
      · exact .inr (hleft.append hl)
    · exact .inl hthere

/-- What is new at a free key has the attributes that were left behind there. -/
theorem arrived_attribute {v' : Volume} {e : Entry}
    (hfree : (calls cs s).world.volume.find? k = none) (he : v'.find? k = some e)
    (hsame : v'.attributes = (calls cs s).world.volume.attributes) :
    v'.attributeOf k n = .ok (some value) ↔ LeftBehind cs s k n value := by
  rw [attributeOf_some, hsame]
  constructor
  · rintro ⟨-, h⟩
    obtain ⟨e', he'⟩ | hleft := attribute_entry hw hs hset k n value h
    · rw [hfree] at he'
      cases he'
    · exact hleft
  · exact fun h => ⟨⟨e, he⟩, h.attribute⟩

end Run

/-- Where attributes are only set on entries, each of them is at an entry unless it was left behind
by a rename. The entries that a rename moves have no other attributes afterwards than those that
earlier renames left behind at their new keys, and neither has a new file. -/
theorem attributes_left_behind (name : String) (uid gid : UInt32) (world : World) (cs : List Call)
    (hset : Throughout Call.SetsOnEntry cs (.start name uid gid world)) :
    let s := Use.start name uid gid world
    let v := (calls cs s).world.volume
    (∀ k n value, v.attributes.lookup (k, n) = some value →
      (∃ e, v.find? k = some e) ∨ LeftBehind cs s k n value) ∧
    (∀ k n value, LeftBehind cs s k n value → v.attributes.lookup (k, n) = some value) ∧
    (∀ source target v', rename source target v = .ok v' → v'.attributes = v.attributes ∧
      ∀ y e, v.find? ⟨source.names ++ y⟩ = some e → ∀ n value,
        (v'.attributeOf ⟨target.names ++ y⟩ n = .ok (some value) ↔
          LeftBehind cs s ⟨target.names ++ y⟩ n value)) ∧
    ∀ k v', createFile k v = .ok v' → ∀ n value,
      (v'.attributeOf k n = .ok (some value) ↔ LeftBehind cs s k n value) := by
  intro s v
  have hw : s.world.volume.WellFormed := empty_wellFormed name uid gid
  have hs : s.world.volume.Attached := fun k n value h => by cases h
  have hwell : v.WellFormed := calls_wellFormed cs s hw
  refine ⟨attribute_entry hw hs hset, fun k n value h => h.attribute,
    fun source target v' hr => ⟨rename_attributes hr, fun y e he n value => ?_⟩,
    fun k v' hc n value => ?_⟩
  · obtain ⟨-, hfree, -, -, rfl⟩ := rename_ok hr
    have hmoved := (relocate_layout hwell source.names hfree).arrived y
    have hnothing := hwell.nothing_within hfree (List.prefix_append target.names y)
    exact arrived_attribute hw hs hset hnothing (hmoved.trans he) rfl
  · obtain ⟨-, -, -, hfree, -, -, rfl⟩ := add_ok hc
    exact arrived_attribute hw hs hset hfree (find?_put_self _ _ _) rfl

def noted : List Call := [.createFile "/f", .setAttribute "/f" "user.note" "x"]

theorem note_left_behind :
    Throughout Call.SetsOnEntry (noted ++ [.rename "/f" "/g"]) (.start "v" 0 0 default) ∧
    LeftBehind (noted ++ [.rename "/f" "/g"]) (.start "v" 0 0 default) ⟨["f"]⟩ "user.note" "x" := by
  have hset : Throughout Call.SetsOnEntry (noted ++ [.rename "/f" "/g"])
      (.start "v" 0 0 default) := ⟨trivial, ⟨_, rfl⟩, trivial, trivial⟩
  obtain ⟨-, -, -, hcreate⟩ := attributes_left_behind "v" 0 0 default _ hset
  exact ⟨hset, (hcreate ⟨["f"]⟩ _ rfl _ _).1 rfl⟩

/-- The note does not follow the file, and the next file at the old place has it. -/
theorem note_changes_files :
    let v := (calls noted (.start "v" 0 0 default)).world.volume
    Throughout Call.SetsOnEntry noted (.start "v" 0 0 default) ∧
    v.attributeOf ⟨["f"]⟩ "user.note" = .ok (some "x") ∧
    ∃ v' v'', rename ⟨["f"]⟩ ⟨["g"]⟩ v = .ok v' ∧
      v'.attributeOf ⟨["g"]⟩ "user.note" = .ok none ∧
      v'.attributes.lookup (⟨["f"]⟩, "user.note") = some "x" ∧ v'.find? ⟨["f"]⟩ = none ∧
      createFile ⟨["f"]⟩ v' = .ok v'' ∧
      v''.attributeOf ⟨["f"]⟩ "user.note" = .ok (some "x") :=
  ⟨⟨trivial, ⟨_, rfl⟩, trivial⟩, rfl, _, _, rfl, rfl, rfl, rfl, rfl, rfl⟩

end VolumeFS.Volume
