import VolumeFS.Proofs.Names
import VolumeFS.Proofs.Table

/-!
# Entries of a volume

What each change of a volume does to its entries: the cases in which it is
made, and the entry that a later look-up finds at every key.
-/

set_option autoImplicit false

namespace VolumeFS.Volume

def put (k : Key) (e : Entry) (v : Volume) : Volume :=
  { v with entries := Table.set k e v.entries }

@[simp] theorem find?_put_self (k : Key) (e : Entry) (v : Volume) :
    (v.put k e).find? k = some e :=
  Table.lookup_set_self k e v.entries

theorem find?_put_of_ne {k k' : Key} (h : k' ≠ k) (e : Entry) (v : Volume) :
    (v.put k e).find? k' = v.find? k' :=
  Table.lookup_set_of_ne h e v.entries

theorem find?_put (k k' : Key) (e : Entry) (v : Volume) :
    (v.put k e).find? k' = if k' = k then some e else v.find? k' := by
  by_cases h : k' = k
  · rw [if_pos h, h, find?_put_self]
  · rw [if_neg h, find?_put_of_ne h]

/-- What is somewhere after an entry was put is that entry, or it was there before. -/
theorem find?_put_cases {k k' : Key} {e a : Entry} {v : Volume}
    (h : (v.put k e).find? k' = some a) : (k' = k ∧ a = e) ∨ v.find? k' = some a := by
  rw [find?_put] at h
  split_ifs at h with hk
  · exact .inl ⟨hk, (Option.some.inj h).symm⟩
  · exact .inr h

theorem put_put (k : Key) (e e' : Entry) (v : Volume) : (v.put k e).put k e' = v.put k e' := by
  simp only [put, Table.set_set]

theorem find?_none {v : Volume} {k : Key} : v.find? k = none ↔ k ∉ Table.keys v.entries :=
  Table.lookup_none

theorem mem_keys {v : Volume} {k : Key} :
    k ∈ Table.keys v.entries ↔ ∃ e, v.find? k = some e :=
  Table.mem_keys

theorem key_parent (x : List String) (n : String) :
    (Key.mk (x ++ [n])).parent? = some ⟨x⟩ := by
  simp [Key.parent?]

theorem key_cases (k : Key) : k = .root ∨ ∃ x n, k = ⟨x ++ [n]⟩ := by
  obtain ⟨names⟩ := k
  rcases List.eq_nil_or_concat names with rfl | ⟨x, n, rfl⟩
  · exact .inl rfl
  · exact .inr ⟨x, n, by rw [List.concat_eq_append]⟩

theorem isBelow_iff {top k : Key} :
    top.isBelow k = true ↔ top.names <+: k.names ∧ k.names ≠ top.names := by
  obtain ⟨top⟩ := top
  obtain ⟨k⟩ := k
  simp [Key.isBelow, Key.isWithin]

theorem checkParent_ok {v : Volume} {parent? : Option Key} {orphan : Fault}
    (h : v.checkParent parent? orphan = .ok ()) :
    ∃ p d, parent? = some p ∧ v.find? p = some d ∧ d.content = .directory := by
  unfold checkParent at h
  split at h
  · cases h
  · split at h
    · exact ⟨_, _, rfl, ‹_›, rfl⟩
    · cases h
    · cases h

theorem checkParent_directory {v : Volume} {p : Key} {d : Entry} (h : v.find? p = some d)
    (hd : d.content = .directory) (orphan : Fault) : v.checkParent (some p) orphan = .ok () := by
  obtain ⟨content, mode, uid, gid⟩ := d
  obtain rfl : content = .directory := hd
  simp [checkParent, h]

theorem add_ok {k : Key} {content : Content} {mode : UInt32} {v v' : Volume}
    (h : add k content mode v = .ok v') :
    ∃ p d, k.parent? = some p ∧ v.find? k = none ∧ v.find? p = some d ∧
      d.content = .directory ∧ v' = v.put k (v.newEntry content mode) := by
  unfold add at h
  split_ifs at h with hk
  · cases h
  · cases hc : v.checkParent k.parent? (.alreadyExists k.text) with
    | error fault => rw [hc] at h; cases h
    | ok u =>
      rw [hc] at h
      cases h
      obtain ⟨p, d, hp, hd, hdir⟩ := checkParent_ok hc
      exact ⟨p, d, hp, by simpa using hk, hd, hdir, rfl⟩

theorem add_free {x : List String} {n : String} {v : Volume} {d : Entry}
    (hfree : v.find? ⟨x ++ [n]⟩ = none) (hd : v.find? ⟨x⟩ = some d)
    (hdir : d.content = .directory) (content : Content) (mode : UInt32) :
    add ⟨x ++ [n]⟩ content mode v =
      .ok (v.put ⟨x ++ [n]⟩ (v.newEntry content mode)) := by
  unfold add
  rw [if_neg (by simp [hfree]), key_parent, checkParent_directory hd hdir]
  rfl

theorem add_taken {k : Key} {v : Volume} {e : Entry} (hk : v.find? k = some e)
    (content : Content) (mode : UInt32) : add k content mode v = .error (.alreadyExists k.text) := by
  unfold add
  rw [if_pos (by simp [hk])]
  rfl

/-- Where the directory above is missing, that is what is said. -/
theorem add_missing {x : List String} {n : String} {v : Volume}
    (hfree : v.find? ⟨x ++ [n]⟩ = none) (hx : v.find? ⟨x⟩ = none) (content : Content)
    (mode : UInt32) : add ⟨x ++ [n]⟩ content mode v = .error (.notFound (Key.mk x).text) := by
  unfold add
  rw [if_neg (by simp [hfree]), key_parent]
  simp only [checkParent, hx]
  rfl

/-- The fault only says what is at a path, or that nothing is. -/
def OfEntry (fault : Fault) : Prop :=
  ∃ path, fault = .alreadyExists path ∨ fault = .notADirectory path ∨ fault = .notFound path

theorem add_error {k : Key} {content : Content} {mode : UInt32} {v : Volume} {fault : Fault}
    (h : add k content mode v = .error fault) : OfEntry fault := by
  unfold add at h
  split_ifs at h with hk
  · cases h
    exact ⟨_, .inl rfl⟩
  · cases hc : v.checkParent k.parent? (.alreadyExists k.text) with
    | ok u =>
      rw [hc] at h
      cases h
    | error fault' =>
      rw [hc] at h
      cases h
      unfold checkParent at hc
      split at hc
      · cases hc
        exact ⟨_, .inl rfl⟩
      · split at hc
        · cases hc
        · cases hc
          exact ⟨_, .inr (.inl rfl)⟩
        · cases hc
          exact ⟨_, .inr (.inr rfl)⟩

theorem delete_ok {k : Key} {v v' : Volume} (h : delete k v = .ok v') :
    k ≠ .root ∧ (∃ e, v.find? k = some e ∧ (e.content.isDirectory = true → v.hasBelow k = false)) ∧
      v'.entries = Table.erase k v.entries ∧ v'.owner = v.owner := by
  unfold delete at h
  split_ifs at h with hr
  · cases h
  · cases hk : v.find? k with
    | none => simp only [hk] at h; cases h
    | some e =>
      simp only [hk] at h
      split_ifs at h with hb
      · cases h
      · cases h
        refine ⟨?_, ⟨e, rfl, ?_⟩, rfl, rfl⟩
        · rintro rfl
          exact hr rfl
        · intro hd
          simpa [hd] using hb

theorem delete_leaf {k : Key} {v : Volume} {e : Entry} (hk : k ≠ .root) (he : v.find? k = some e)
    (hb : v.hasBelow k = false) : ∃ v', delete k v = .ok v' ∧
      v'.entries = Table.erase k v.entries ∧ v'.owner = v.owner := by
  have hr : k.isRoot = false := by
    obtain ⟨names⟩ := k
    cases names with
    | nil => exact absurd rfl hk
    | cons n names => rfl
  refine ⟨{ v with
    entries := Table.erase k v.entries
    attributes := v.attributes.filter fun entry => entry.1.1 ≠ k }, ?_, rfl, rfl⟩
  unfold delete
  simp only [hr, he, hb, Bool.and_false, Bool.false_eq_true, if_false]
  rfl

def relocate (source target : Key) (v : Volume) : Volume :=
  { v with entries := v.entries.map fun (k, e) => (Key.moved source target k, e) }

theorem rename_ok {source target : Key} {v v' : Volume} (h : rename source target v = .ok v') :
    (∃ e, v.find? source = some e) ∧ v.find? target = none ∧ source.isBelow target = false ∧
      (∃ p d, target.parent? = some p ∧ v.find? p = some d ∧ d.content = .directory) ∧
      v' = v.relocate source target := by
  unfold rename at h
  by_cases hr : v.refusesRenames = true
  · rw [if_pos hr] at h
    cases h
  rw [if_neg hr] at h
  by_cases hs : (v.find? source).isNone = true
  · rw [if_pos hs] at h
    cases h
  rw [if_neg hs] at h
  dsimp only at h
  by_cases ht : (v.find? target).isSome = true
  · rw [if_pos ht] at h
    cases h
  rw [if_neg ht] at h
  by_cases hb : source.isBelow target = true
  · rw [if_pos hb] at h
    cases h
  rw [if_neg hb] at h
  cases hc : v.checkParent target.parent? (.alreadyExists "/") with
  | error fault => rw [hc] at h; cases h
  | ok u =>
    rw [hc] at h
    cases h
    refine ⟨?_, by simpa using ht, by simpa using hb, checkParent_ok hc, rfl⟩
    exact Option.ne_none_iff_exists'.1 (by simpa using hs)

theorem rename_refused {source target : Key} {v : Volume} (hv : v.refusesRenames = true) :
    rename source target v = .error (.backend s!"rename of {source.text} refused") := by
  unfold rename
  rw [if_pos hv]
  rfl

theorem rename_free {source target : List String} {n : String} {v : Volume} {e d : Entry}
    (hv : v.refusesRenames = false) (he : v.find? ⟨source⟩ = some e)
    (hfree : v.find? ⟨target ++ [n]⟩ = none) (hb : ¬ source <+: target ++ [n])
    (hd : v.find? ⟨target⟩ = some d) (hdir : d.content = .directory) :
    rename ⟨source⟩ ⟨target ++ [n]⟩ v = .ok (v.relocate ⟨source⟩ ⟨target ++ [n]⟩) := by
  have hbelow : (Key.mk source).isBelow ⟨target ++ [n]⟩ = false := by
    rw [Bool.eq_false_iff]
    exact fun h => hb (isBelow_iff.1 h).1
  unfold rename
  rw [if_neg (by simp [hv]), if_neg (by simp [he])]
  dsimp only
  rw [if_neg (by simp [hfree]), if_neg (by simp [hbelow]), key_parent,
    checkParent_directory hd hdir]
  rfl

theorem alter_ok {k : Key} {change : Entry → Entry} {v v' : Volume}
    (h : alter k change v = .ok v') :
    ∃ e, v.find? k = some e ∧ v' = v.put k (change e) := by
  unfold alter at h
  split at h
  · cases h
    exact ⟨_, ‹_›, rfl⟩
  · cases h

theorem alter_found {k : Key} {e : Entry} {v : Volume} (h : v.find? k = some e)
    (change : Entry → Entry) : alter k change v = .ok (v.put k (change e)) := by
  simp only [alter, h, put]

theorem readable_file {k : Key} {v : Volume} {e : Entry} {data : List Byte}
    (h : v.find? k = some e) (hc : e.content = .file data) : v.readable k = .ok data := by
  obtain ⟨content, mode, uid, gid⟩ := e
  obtain rfl : content = .file data := hc
  simp only [readable, h]

theorem contents_eq_some {k : Key} {v : Volume} {data : List Byte} :
    v.contents? k = some data ↔ ∃ e, v.find? k = some e ∧ e.content = .file data := by
  unfold contents?
  rcases v.find? k with _ | ⟨old | _, mode, uid, gid⟩ <;> simp

theorem writeAt_ok {k : Key} {offset : Nat} {bytes : List Byte} {v v' : Volume}
    (h : writeAt k offset bytes v = .ok v') :
    ∃ data mode uid gid, v.find? k = some ⟨.file data, mode, uid, gid⟩ ∧
      offset + bytes.length ≤ longest ∧
      v' = v.put k ⟨.file (overwrite data offset bytes), mode, uid, gid⟩ := by
  unfold writeAt at h
  split at h
  · split_ifs at h with hl
    cases h
    exact ⟨_, _, _, _, ‹_›, by omega, rfl⟩
  · cases h

end VolumeFS.Volume
