import VolumeFS.Proofs.Disk.Linked
import VolumeFS.Proofs.Mount.Files

/-!
# Free places on a disk

A path may lead to a directory, by whatever links, and from there along names to
a place where nothing is. To put a file there, the directories on the way are
made and then the file is opened. All the while what was on the disk before is
left as it was, and nothing else is there than directories on the way and a file
at the place.
-/

set_option autoImplicit false

namespace VolumeFS.Disk

namespace Onward

variable {d : Disk} {path : String} {base : Place} {n : String}

/-- A path along names that are not all there leads to no entry. -/
theorem find_absent {w : List String} (hw : w ≠ []) (hnames : ∀ n ∈ w, EntryName n)
    (h : d.Onward path base w)
    (hway : ∀ z v, w = z ++ v → z ≠ [] → ∀ a, d.node? (base ++ z) = some a →
      v ≠ [] ∧ a.isDirectory = true) : d.find path = .error noEntry := by
  induction w generalizing base with
  | nil => exact absurd rfl hw
  | cons m w ih =>
    have hm := hnames m (by simp)
    have hrest : ∀ k ∈ w, EntryName k := fun k hk => hnames k (by simp [hk])
    cases ha : d.node? (base ++ [m]) with
    | none =>
      unfold find
      by_cases hw0 : w = []
      · subst hw0
        rw [h.last hm (by simp [ha]), ha]
        rfl
      · rw [h.missing hm hrest hw0 ha]
        rfl
    | some a =>
      obtain ⟨hw0, hdir⟩ := hway [m] w rfl (by simp) a ha
      obtain ⟨mode, rfl⟩ := isDirectory_iff.1 hdir
      refine ih hw0 hrest (h.down hm ha) fun z v hzv _ b hb => ?_
      rw [List.append_assoc] at hb
      exact hway (m :: z) v (by rw [hzv]; rfl) (by simp) b hb

variable (h : d.Onward path base [n]) (hn : EntryName n)

include h hn

theorem find_file {number : Nat} (hfile : d.node? (base ++ [n]) = some (.file number)) :
    d.find path = .ok (base ++ [n], .file number) := by
  rw [find_eq_ok, h.last hn (by simp [hfile]), hfile]

theorem setMode_file {number : Nat} (hfile : d.node? (base ++ [n]) = some (.file number))
    (mode : UInt32) : setMode path mode d = .ok { d with
      bodies := d.bodies.modify number fun b => { b with mode := permissionBits mode } } := by
  unfold setMode
  rw [h.find_file hn hfile]
  rfl

theorem createDirectory_taken {a : Node} (ha : d.node? (base ++ [n]) = some a) :
    createDirectory path d = .error taken := by
  unfold createDirectory
  rw [h.parent hn]
  change (d.entry base n >>= _) = _
  rw [entry_named hn, ha]
  rfl

theorem resolveFile (hlink : ∀ target, d.node? (base ++ [n]) ≠ some (.link target)) :
    d.resolveFile path = .ok ⟨base ++ [n], d.node? (base ++ [n])⟩ := by
  have hlast : d.Onward path base [n] := h
  unfold Disk.resolveFile
  rw [h.parent hn]
  obtain ⟨mode, hbase⟩ := h.base_directory
  change d.walk linkLimit base [n] = _
  cases ha : d.node? (base ++ [n]) with
  | none => rw [walk_free hbase hn.names ha]; rfl
  | some a => rw [walk_named hbase hn.names ha fun target h0 => hlink target (h0 ▸ ha), walk, ha]

theorem openWriter_free (hfree : d.node? (base ++ [n]) = none) :
    openWriter path d = .ok (⟨some d.bodies.length, 0⟩, d.filed (base ++ [n])) := by
  unfold openWriter
  rw [h.resolveFile hn (by simp [hfree]), hfree]
  rfl

theorem openWriter_file {number : Nat} (hfile : d.node? (base ++ [n]) = some (.file number)) :
    openWriter path d = .ok (⟨some number, 0⟩, d.refilled number []) := by
  unfold openWriter
  rw [h.resolveFile hn (by simp [hfile]), hfile]
  rfl

end Onward

/-- Neither at the end of the names nor on the way there from `base` is anything. -/
def Vacant (d : Disk) (base : Place) (w : List String) : Prop :=
  ∀ z, z ≠ [] → z <+: w → d.node? (base ++ z) = none

/-- What may be on a disk while a file is made at the end of the names, if the disk was `d₀` at
first. -/
structure Grown (d₀ : Disk) (base : Place) (y : List String) (n : String) (d : Disk) : Prop where
  kept : Kept d₀ d
  way : ∀ z a, z ≠ [] → z <+: y → d.node? (base ++ z) = some a → a.isDirectory = true
  place : ∀ a, d.node? (base ++ (y ++ [n])) = some a →
    ∃ k, a = .file k ∧ d₀.bodies.length ≤ k ∧ k < d.bodies.length
  rooted : ∀ z m a, z ++ [m] <+: y ++ [n] → d.node? (base ++ (z ++ [m])) = some a →
    ∃ mode, d.node? (base ++ z) = some (.directory mode)
  new : ∀ p a, d.node? p = some a →
    d₀.node? p = some a ∨ ∃ z, z ≠ [] ∧ z <+: y ++ [n] ∧ p = base ++ z
  count : d₀.bodies.length ≤ d.bodies.length
  bodies : ∀ k, k < d₀.bodies.length → d.bodies[k]? = d₀.bodies[k]?

/-- All that was on the disk is as it was, and nothing is new but directories and what is at the
place. -/
structure Enlarged (place : Place) (d d' : Disk) : Prop where
  kept : Kept d d'
  bodies : ∀ number, number < d.bodies.length → d'.body number = d.body number
  new : ∀ x a, d'.node? x = some a → d.node? x = some a ∨ a.isDirectory = true ∨ x = place

namespace Grown

variable {d₀ d d' : Disk} {base : Place} {y : List String} {n : String}

theorem refl (h : d₀.Vacant base (y ++ [n])) : Grown d₀ base y n d₀ := by
  have hnone : ∀ {z a}, z ≠ [] → z <+: y ++ [n] → d₀.node? (base ++ z) ≠ some a := by
    intro z a hz hzw ha
    rw [h z hz hzw] at ha
    cases ha
  refine ⟨.refl d₀, fun z a hz hzy ha => ?_, fun a ha => ?_, fun z m a hz ha => ?_,
    fun p a ha => .inl ha, Nat.le_refl _, fun k _ => rfl⟩
  · exact absurd ha (hnone hz (hzy.trans (List.prefix_append y [n])))
  · exact absurd ha (hnone (by simp) (List.prefix_refl _))
  · exact absurd ha (hnone (by simp) hz)

theorem enlarged (h : Grown d₀ base y n d) : Enlarged (base ++ (y ++ [n])) d₀ d where
  kept := h.kept
  bodies := by
    intro number hnumber
    rw [body, body, List.getD_eq_getElem?_getD, List.getD_eq_getElem?_getD, h.bodies number hnumber]
  new := by
    intro x a ha
    obtain hold | ⟨z, hz, hzw, rfl⟩ := h.new x a ha
    · exact .inl hold
    · rcases List.prefix_concat_iff.1 hzw with rfl | hzy
      · exact .inr (.inr rfl)
      · exact .inr (.inl (h.way z a hz hzy ha))

/-- Something is put in a directory on the way, or a file at the end of it. -/
theorem added (h : Grown d₀ base y n d) {z : List String} {m : String} {a : Node} {mode : UInt32}
    (hz : z ++ [m] <+: y ++ [n]) (hdir : d.node? (base ++ z) = some (.directory mode))
    (hfree : d.node? (base ++ (z ++ [m])) = none)
    (hnodes : d'.nodes = Table.set (base ++ (z ++ [m])) a d.nodes) (hcurrent : d'.current = d.current)
    (hway : z ++ [m] <+: y → a.isDirectory = true)
    (hplace : z ++ [m] = y ++ [n] →
      ∃ k, a = .file k ∧ d₀.bodies.length ≤ k ∧ k < d'.bodies.length)
    (hcount : d.bodies.length ≤ d'.bodies.length)
    (hbodies : ∀ k, k < d.bodies.length → d'.bodies[k]? = d.bodies[k]?) :
    Kept d d' ∧ Grown d₀ base y n d' := by
  have hkept : Kept d d' := by
    refine ⟨fun p b hb => ?_, hcurrent⟩
    rw [layout_set hnodes]
    exact Tree.update_some_kept hfree hb
  refine ⟨hkept, h.kept.trans hkept, fun z' b hz0 hz' hb => ?_, fun b hb => ?_,
    fun z' m' b hz' hb => ?_, fun p b hb => ?_, Nat.le_trans h.count hcount, fun k hk => ?_⟩
  · obtain ⟨hp, rfl⟩ | hb := node?_set hnodes hb
    · rw [List.append_cancel_left hp] at hz'
      exact hway hz'
    · exact h.way z' b hz0 hz' hb
  · obtain ⟨hp, rfl⟩ | hb := node?_set hnodes hb
    · exact hplace (List.append_cancel_left hp).symm
    · obtain ⟨k, rfl, hle, hlt⟩ := h.place b hb
      exact ⟨k, rfl, hle, Nat.lt_of_lt_of_le hlt hcount⟩
  · obtain ⟨hp, rfl⟩ | hb := node?_set hnodes hb
    · obtain ⟨rfl, -⟩ := List.append_inj' (List.append_cancel_left hp) rfl
      exact ⟨mode, hkept.nodes _ _ hdir⟩
    · obtain ⟨mode', hd⟩ := h.rooted z' m' b hz' hb
      exact ⟨mode', hkept.nodes _ _ hd⟩
  · obtain ⟨rfl, -⟩ | hb := node?_set hnodes hb
    · exact .inr ⟨z ++ [m], by simp, hz, rfl⟩
    · exact h.new p b hb
  · rw [hbodies k (Nat.lt_of_lt_of_le hk h.count), h.bodies k hk]

/-- A new directory on the way. -/
theorem directory (h : Grown d₀ base y n d) {z : List String} {m : String} {mode : UInt32}
    (hz : z ++ [m] <+: y) (hdir : d.node? (base ++ z) = some (.directory mode))
    (hfree : d.node? (base ++ (z ++ [m])) = none) (mode' : UInt32)
    (hd' : d' = { d with nodes := Table.set (base ++ (z ++ [m])) (.directory mode') d.nodes }) :
    Kept d d' ∧ Grown d₀ base y n d' := by
  subst hd'
  refine h.added (hz.trans (List.prefix_append y [n])) hdir hfree rfl rfl (fun _ => rfl)
    (fun he => ?_) (Nat.le_refl _) fun _ _ => rfl
  exact absurd (he ▸ hz) (Tree.below_not_above (by simp))

/-- A new file at the place. -/
theorem filed (h : Grown d₀ base y n d) {mode : UInt32}
    (hdir : d.node? (base ++ y) = some (.directory mode))
    (hfree : d.node? (base ++ (y ++ [n])) = none) :
    Kept d (d.filed (base ++ (y ++ [n]))) ∧
      Grown d₀ base y n (d.filed (base ++ (y ++ [n]))) := by
  have hlength : (d.filed (base ++ (y ++ [n]))).bodies.length = d.bodies.length + 1 :=
    List.length_append
  refine h.added (List.prefix_refl _) hdir hfree rfl rfl (fun hy => ?_)
    (fun _ => ⟨d.bodies.length, rfl, h.count, by omega⟩) (by omega) fun k hk => ?_
  · exact absurd hy (Tree.below_not_above (by simp))
  · exact List.getElem?_append_left hk

/-- Other bytes or another mode for the file. -/
theorem modified (h : Grown d₀ base y n d) {number : Nat} (hnumber : d₀.bodies.length ≤ number)
    (change : Body → Body) (hd' : d' = { d with bodies := d.bodies.modify number change }) :
    Kept d d' ∧ Grown d₀ base y n d' := by
  subst hd'
  have hkept : Kept d { d with bodies := d.bodies.modify number change } := ⟨fun _ _ hx => hx, rfl⟩
  have hlength : (d.bodies.modify number change).length = d.bodies.length := List.length_modify _ _ _
  refine ⟨hkept, h.kept.trans hkept, h.way, fun a ha => ?_, h.rooted, h.new, ?_, fun k hk => ?_⟩
  · obtain ⟨k, rfl, hle, hlt⟩ := h.place a ha
    exact ⟨k, rfl, hle, by rwa [hlength]⟩
  · rw [hlength]
    exact h.count
  · rw [List.getElem?_modify_ne _ _ (by omega)]
    exact h.bodies k hk

/-- Whether the file is new or not, it is empty once it is open for writing. -/
theorem opened (h : Grown d₀ base y n d) {path : String} (hpath : d.Onward path (base ++ y) [n])
    (hn : EntryName n) : ∃ number d', openWriter path d = .ok (⟨some number, 0⟩, d') ∧
      (Kept d d' ∧ Grown d₀ base y n d') ∧ d'.node? (base ++ (y ++ [n])) = some (.file number) ∧
      (d'.body number).data = [] := by
  cases ha : d.node? (base ++ (y ++ [n])) with
  | none =>
    obtain ⟨mode, hdir⟩ := hpath.base_directory
    have hopen := hpath.openWriter_free hn (by rwa [List.append_assoc])
    rw [List.append_assoc] at hopen
    refine ⟨_, _, hopen, h.filed hdir ha, ?_, ?_⟩
    · exact (congrFun (layout_set rfl) _).trans (Function.update_self _ _ _)
    · simp [Disk.filed, body]
  | some a =>
    obtain ⟨number, rfl, hle, hlt⟩ := h.place a ha
    have hopen := hpath.openWriter_file hn (by rwa [List.append_assoc])
    exact ⟨_, _, hopen, h.modified hle _ rfl, ha, body_refilled_self hlt []⟩

/-- Above what is on the way there are directories. -/
theorem directory_above (h : Grown d₀ base y n d) {z v : List String} {a : Node} (hv : v ≠ [])
    (hz : z ++ v <+: y ++ [n]) (ha : d.node? (base ++ (z ++ v)) = some a) :
    ∃ mode, d.node? (base ++ z) = some (.directory mode) := by
  induction v using List.reverseRecOn generalizing a with
  | nil => exact absurd rfl hv
  | append_singleton v m ih =>
    rw [← List.append_assoc z v] at hz ha
    obtain ⟨mode, hdir⟩ := h.rooted (z ++ v) m a hz ha
    by_cases hv0 : v = []
    · rw [hv0, List.append_nil] at hdir
      exact ⟨mode, hdir⟩
    · exact ih hv0 ((List.prefix_append (z ++ v) [m]).trans hz) hdir

section Path

variable {path : String} (hpath : d.Onward path base (y ++ [n]))
  (hnames : ∀ m ∈ y ++ [n], EntryName m)

include hpath hnames

/-- Once the directories are there the path ends in the last of them. -/
theorem onward (hdirs : ∀ z, z <+: y → ∃ mode, d.node? (base ++ z) = some (.directory mode)) :
    d.Onward path (base ++ y) [n] :=
  hpath.along (fun m hm => hnames m (List.mem_append_left _ hm)) hdirs

/-- At first nothing is found at the place. -/
theorem find_free (h : Grown d₀ base y n d) (hfree : d.node? (base ++ (y ++ [n])) = none) :
    d.find path = .error noEntry := by
  refine hpath.find_absent (by simp) hnames fun z v hzv hz a ha => ?_
  obtain rfl | ⟨v, m, rfl⟩ := List.eq_nil_or_concat' v
  · rw [List.append_nil] at hzv
    rw [← hzv, hfree] at ha
    cases ha
  · rw [← List.append_assoc] at hzv
    obtain ⟨rfl, -⟩ := List.append_inj' hzv rfl
    exact ⟨by simp, h.way z a hz (List.prefix_append z v) ha⟩

end Path

end Grown

end VolumeFS.Disk
