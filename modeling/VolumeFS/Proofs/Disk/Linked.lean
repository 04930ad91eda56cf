import VolumeFS.Proofs.Disk.Walk

/-!
# Walks through links

On a disk with links a path may lead anywhere. A way is what a walk goes along
to a directory, with the links that it takes. It is the same way on a disk with
more nodes, and whatever comes after is walked from the directory on. From there
a row of names that meets no link leads where the names say. From a file nothing
leads on.
-/

set_option autoImplicit false

namespace VolumeFS.Disk

structure Kept (d d' : Disk) : Prop where
  nodes : ∀ x a, d.node? x = some a → d'.node? x = some a
  current : d'.current = d.current

namespace Kept

variable {d d' d'' : Disk}

theorem refl (d : Disk) : Kept d d := ⟨fun _ _ h => h, rfl⟩

theorem trans (h : Kept d d') (h' : Kept d' d'') : Kept d d'' :=
  ⟨fun x a hx => h'.nodes x a (h.nodes x a hx), h'.current.trans h.current⟩

end Kept

structure Names (name : String) : Prop where
  still : ¬ (name = "" ∨ name = ".")
  up : name ≠ ".."
  short : ¬ nameLimit < name.utf8ByteSize

theorem EntryName.names {n : String} (h : EntryName n) : Names n where
  still := by simp [h.name.1, h.name.2.1]
  up := h.name.2.2.1
  short := Nat.not_lt.2 h.short

def linkStart (place : Place) (target : String) : Place :=
  if target.toList.head? = some '/' then [] else place

/-- Along the parts one gets from a directory to a directory; the numbers tell how many links may be
taken before and after. -/
inductive Way (d : Disk) : Nat → Place → List String → Nat → Place → Prop
  | here {links place mode} : d.node? place = some (.directory mode) →
      Way d links place [] links place
  | still {links place mode name rest left base} : d.node? place = some (.directory mode) →
      name = "" ∨ name = "." → Way d links place rest left base →
      Way d links place (name :: rest) left base
  | up {links place mode rest left base} : d.node? place = some (.directory mode) →
      Way d links place.dropLast rest left base → Way d links place (".." :: rest) left base
  | down {links place mode name mode' rest left base} : d.node? place = some (.directory mode) →
      Names name → d.node? (place ++ [name]) = some (.directory mode') →
      Way d links (place ++ [name]) rest left base → Way d links place (name :: rest) left base
  | link {links place mode name target rest left base} : d.node? place = some (.directory mode) →
      Names name → d.node? (place ++ [name]) = some (.link target) →
      Way d links (linkStart place target) (parts target ++ rest) left base →
      Way d (links + 1) place (name :: rest) left base

section Steps

variable {d : Disk} {links : Nat} {place : Place} {mode : UInt32} {name : String}
  {rest : List String} (hplace : d.node? place = some (.directory mode))

include hplace

theorem walk_still (hname : name = "" ∨ name = ".") :
    d.walk links place (name :: rest) = d.walk links place rest := by
  rw [walk]
  simp only [hplace, if_pos hname]

theorem walk_up : d.walk links place (".." :: rest) = d.walk links place.dropLast rest := by
  rw [walk]
  simp only [hplace]
  rw [if_neg (by decide)]
  rfl

variable (hname : Names name)

include hname

theorem walk_named {a : Node} (ha : d.node? (place ++ [name]) = some a)
    (hlink : ∀ target, a ≠ .link target) :
    d.walk links place (name :: rest) = d.walk links (place ++ [name]) rest := by
  rw [walk]
  simp only [hplace, ha]
  rw [if_neg hname.still, if_neg hname.up, if_neg hname.short]

theorem walk_link {target : String} (ha : d.node? (place ++ [name]) = some (.link target)) :
    d.walk (links + 1) place (name :: rest) =
      d.walk links (linkStart place target) (parts target ++ rest) := by
  rw [walk]
  simp only [hplace, ha]
  rw [if_neg hname.still, if_neg hname.up, if_neg hname.short]
  rfl

theorem walk_free (ha : d.node? (place ++ [name]) = none) :
    d.walk links place (name :: rest) =
      if rest.all (· = "") then .ok ⟨place ++ [name], none⟩ else .error noEntry := by
  rw [walk]
  simp only [hplace, ha]
  rw [if_neg hname.still, if_neg hname.up, if_neg hname.short]

end Steps

namespace Way

variable {d d' : Disk} {links left : Nat} {start base : Place} {parts : List String}

theorem directory (h : Way d links start parts left base) :
    ∃ mode, d.node? base = some (.directory mode) := by
  induction h with
  | here hplace => exact ⟨_, hplace⟩
  | still _ _ _ ih => exact ih
  | up _ _ ih => exact ih
  | down _ _ _ _ ih => exact ih
  | link _ _ _ _ ih => exact ih

theorem start_directory (h : Way d links start parts left base) :
    ∃ mode, d.node? start = some (.directory mode) := by
  cases h <;> exact ⟨_, ‹_›⟩

/-- What comes after is walked from where the way leads. -/
theorem walk (h : Way d links start parts left base) (rest : List String) :
    d.walk links start (parts ++ rest) = d.walk left base rest := by
  induction h with
  | here _ => rfl
  | still hplace hname _ ih => rw [List.cons_append, walk_still hplace hname, ih]
  | up hplace _ ih => rw [List.cons_append, walk_up hplace, ih]
  | down hplace hname hnext _ ih =>
    rw [List.cons_append, walk_named hplace hname hnext (by simp), ih]
  | link hplace hname hnext _ ih =>
    rw [List.cons_append, walk_link hplace hname hnext, ← List.append_assoc, ih]

theorem kept (h : Way d links start parts left base) (hd : Kept d d') :
    Way d' links start parts left base := by
  induction h with
  | here hplace => exact .here (hd.nodes _ _ hplace)
  | still hplace hname _ ih => exact .still (hd.nodes _ _ hplace) hname ih
  | up hplace _ ih => exact .up (hd.nodes _ _ hplace) ih
  | down hplace hname hnext _ ih => exact .down (hd.nodes _ _ hplace) hname (hd.nodes _ _ hnext) ih
  | link hplace hname hnext _ ih => exact .link (hd.nodes _ _ hplace) hname (hd.nodes _ _ hnext) ih

/-- A way can be taken apart at each of its parts. -/
theorem split {before after : List String} (h : Way d links start parts left base)
    (hparts : parts = before ++ after) :
    ∃ links' place, Way d links start before links' place ∧ Way d links' place after left base := by
  induction h generalizing before with
  | @here links place mode hplace =>
    obtain ⟨rfl, rfl⟩ := List.append_eq_nil_iff.1 hparts.symm
    exact ⟨links, place, .here hplace, .here hplace⟩
  | @still links place mode name rest left base hplace hname hrest ih =>
    cases before with
    | nil =>
      subst hparts
      exact ⟨links, place, .here hplace, .still hplace hname hrest⟩
    | cons part before =>
      obtain ⟨rfl, hrest'⟩ := List.cons.inj hparts
      obtain ⟨links', place', hbefore, hafter⟩ := ih hrest'
      exact ⟨links', place', .still hplace hname hbefore, hafter⟩
  | @up links place mode rest left base hplace hrest ih =>
    cases before with
    | nil =>
      subst hparts
      exact ⟨links, place, .here hplace, .up hplace hrest⟩
    | cons part before =>
      obtain ⟨rfl, hrest'⟩ := List.cons.inj hparts
      obtain ⟨links', place', hbefore, hafter⟩ := ih hrest'
      exact ⟨links', place', .up hplace hbefore, hafter⟩
  | @down links place mode name mode' rest left base hplace hname hnext hrest ih =>
    cases before with
    | nil =>
      subst hparts
      exact ⟨links, place, .here hplace, .down hplace hname hnext hrest⟩
    | cons part before =>
      obtain ⟨rfl, hrest'⟩ := List.cons.inj hparts
      obtain ⟨links', place', hbefore, hafter⟩ := ih hrest'
      exact ⟨links', place', .down hplace hname hnext hbefore, hafter⟩
  | @link links place mode name target rest left base hplace hname hnext hrest ih =>
    cases before with
    | nil =>
      subst hparts
      exact ⟨links + 1, place, .here hplace, .link hplace hname hnext hrest⟩
    | cons part before =>
      obtain ⟨rfl, rfl⟩ := List.cons.inj hparts
      obtain ⟨links', place', hbefore, hafter⟩ := ih (List.append_assoc _ _ _).symm
      exact ⟨links', place', .link hplace hname hnext hbefore, hafter⟩

theorem append {before after : List String} {links' : Nat} {place : Place}
    (h : Way d links start before links' place) (h' : Way d links' place after left base) :
    Way d links start (before ++ after) left base := by
  induction h with
  | here _ => exact h'
  | still hplace hname _ ih => exact .still hplace hname (ih h')
  | up hplace _ ih => exact .up hplace (ih h')
  | down hplace hname hnext _ ih => exact .down hplace hname hnext (ih h')
  | link hplace hname hnext _ ih =>
    have hrest := ih h'
    rw [List.append_assoc] at hrest
    exact .link hplace hname hnext hrest

theorem left_le (h : Way d links start parts left base) : left ≤ links := by
  induction h with
  | here _ => exact Nat.le_refl _
  | still _ _ _ ih => exact ih
  | up _ _ ih => exact ih
  | down _ _ _ _ ih => exact ih
  | link _ _ _ _ ih => exact Nat.le_succ_of_le ih

theorem unique {left' : Nat} {base' : Place} (h : Way d links start parts left base)
    (h' : Way d links start parts left' base') : left = left' ∧ base = base' := by
  induction h with
  | here _ =>
    cases h'
    exact ⟨rfl, rfl⟩
  | still _ hname _ ih =>
    cases h' with
    | still _ _ hrest => exact ih hrest
    | up _ _ => exact absurd hname (by decide)
    | down _ hnot _ _ => exact absurd hname hnot.still
    | link _ hnot _ _ => exact absurd hname hnot.still
  | up _ _ ih =>
    cases h' with
    | still _ hname _ => exact absurd hname (by decide)
    | up _ hrest => exact ih hrest
    | down _ hnot _ _ => exact absurd rfl hnot.up
    | link _ hnot _ _ => exact absurd rfl hnot.up
  | down _ hname hnext _ ih =>
    cases h' with
    | still _ hstill _ => exact absurd hstill hname.still
    | up _ _ => exact absurd rfl hname.up
    | down _ _ _ hrest => exact ih hrest
    | link _ _ hlink _ => cases hnext.symm.trans hlink
  | link _ hname hnext _ ih =>
    cases h' with
    | still _ hstill _ => exact absurd hstill hname.still
    | up _ _ => exact absurd rfl hname.up
    | down _ _ hdir _ => cases hnext.symm.trans hdir
    | link _ _ hlink hrest =>
      cases hnext.symm.trans hlink
      exact ih hrest

/-- A slash at the end leads no further. -/
theorem slash {parts : List String} (h : Way d links start parts left base) (hparts : parts = [""]) :
    left = links ∧ base = start := by
  cases h with
  | here _ => cases hparts
  | still _ _ hrest =>
    obtain ⟨-, rfl⟩ := List.cons.inj hparts
    cases hrest
    exact ⟨rfl, rfl⟩
  | up _ _ => exact absurd (List.cons.inj hparts).1 (by decide)
  | down _ hname _ _ => exact absurd (.inl (List.cons.inj hparts).1) hname.still
  | link _ hname _ _ => exact absurd (.inl (List.cons.inj hparts).1) hname.still

/-- Directories are walked down by their names. -/
theorem along {y : List String} (hnames : ∀ n ∈ y, EntryName n)
    (hdirs : ∀ z, z <+: y → ∃ mode, d.node? (base ++ z) = some (.directory mode)) :
    Way d links base y links (base ++ y) := by
  induction y generalizing base with
  | nil =>
    obtain ⟨mode, hbase⟩ := hdirs [] (List.prefix_refl _)
    rw [List.append_nil] at hbase ⊢
    exact .here hbase
  | cons n y ih =>
    obtain ⟨mode, hbase⟩ := hdirs [] List.nil_prefix
    obtain ⟨mode', hnext⟩ := hdirs [n] ⟨y, rfl⟩
    rw [List.append_nil] at hbase
    have hrest := @ih (base ++ [n]) (fun m hm => hnames m (by simp [hm])) fun z hz => by
      obtain ⟨mode, hz⟩ := hdirs (n :: z) (List.cons_prefix_cons.2 ⟨rfl, hz⟩)
      exact ⟨mode, by rwa [List.append_assoc]⟩
    rw [List.append_assoc] at hrest
    exact .down hbase (hnames n (by simp)).names hnext hrest

end Way

theorem walk_way {d : Disk} {links : Nat} {start base : Place} {parts : List String} {mode : UInt32}
    (h : d.walk links start parts = .ok ⟨base, some (.directory mode)⟩) :
    ∃ left, Way d links start parts left base := by
  fun_induction walk d links start parts with
  | case1 links place =>
    simp only [Except.ok.injEq, Found.mk.injEq] at h
    obtain ⟨rfl, hplace⟩ := h
    exact ⟨links, .here hplace⟩
  | case2 links place name rest mode hplace hname ih =>
    obtain ⟨left, hway⟩ := ih h
    exact ⟨left, .still hplace hname hway⟩
  | case3 links place rest mode hplace _ ih =>
    obtain ⟨left, hway⟩ := ih h
    exact ⟨left, .up hplace hway⟩
  | case8 place name rest mode hplace hstill hup hshort next target hnext links start ih =>
    obtain ⟨left, hway⟩ := ih h
    exact ⟨left, .link hplace ⟨hstill, hup, hshort⟩ hnext hway⟩
  | case9 links place name rest mode hplace hstill hup hshort next a hlink hnext ih =>
    obtain ⟨left, hway⟩ := ih h
    obtain ⟨mode', hdir⟩ := hway.start_directory
    exact ⟨left, .down hplace ⟨hstill, hup, hshort⟩ hdir hway⟩
  | _ => simp at h

/-- Who may take more links gets as far. -/
theorem walk_more {d : Disk} {links more : Nat} {start : Place} {parts : List String} {found : Found}
    (hle : links ≤ more) (h : d.walk links start parts = .ok found) :
    d.walk more start parts = .ok found := by
  fun_induction walk d links start parts generalizing more with
  | case1 links place =>
    rw [walk]
    exact h
  | case2 links place name rest mode hplace hname ih =>
    rw [walk_still hplace hname]
    exact ih hle h
  | case3 links place rest mode hplace _ ih =>
    rw [walk_up hplace]
    exact ih hle h
  | case5 links place name rest mode hplace hstill hup hshort next hnext =>
    rename_i hslashes
    rw [walk_free hplace ⟨hstill, hup, hshort⟩ hnext, if_pos hslashes]
    exact h
  | case8 place name rest mode hplace hstill hup hshort next target hnext links start =>
    rename_i ih
    obtain ⟨more, rfl⟩ : ∃ less, more = less + 1 := ⟨more - 1, by omega⟩
    rw [walk_link hplace ⟨hstill, hup, hshort⟩ hnext]
    exact ih (by omega) h
  | case9 links place name rest mode hplace hstill hup hshort next a hlink hnext =>
    rename_i ih
    rw [walk_named hplace ⟨hstill, hup, hshort⟩ hnext hlink]
    exact ih hle h
  | _ => simp at h

/-- Where more parts follow, a walk that finds something came to a directory first. -/
theorem walk_through {d : Disk} {links : Nat} {start place : Place}
    {parts before after : List String} {a : Node}
    (h : d.walk links start parts = .ok ⟨place, some a⟩) (hparts : parts = before ++ after)
    (hafter : after ≠ []) : ∃ left base, Way d links start before left base := by
  fun_induction walk d links start parts generalizing before with
  | case1 links place =>
    obtain ⟨-, rfl⟩ := List.append_eq_nil_iff.1 hparts.symm
    exact absurd rfl hafter
  | case2 links place name rest mode hplace hname ih =>
    cases before with
    | nil => exact ⟨links, place, .here hplace⟩
    | cons part before =>
      obtain ⟨rfl, hrest⟩ := List.cons.inj hparts
      obtain ⟨left, base, hway⟩ := ih h hrest
      exact ⟨left, base, .still hplace hname hway⟩
  | case3 links place rest mode hplace _ ih =>
    cases before with
    | nil => exact ⟨links, place, .here hplace⟩
    | cons part before =>
      obtain ⟨rfl, hrest⟩ := List.cons.inj hparts
      obtain ⟨left, base, hway⟩ := ih h hrest
      exact ⟨left, base, .up hplace hway⟩
  | case8 place name rest mode hplace hstill hup hshort next target hnext links start =>
    rename_i ih
    cases before with
    | nil => exact ⟨links + 1, place, .here hplace⟩
    | cons part before =>
      obtain ⟨rfl, rfl⟩ := List.cons.inj hparts
      obtain ⟨left, base, hway⟩ := ih h (List.append_assoc _ _ _).symm
      exact ⟨left, base, .link hplace ⟨hstill, hup, hshort⟩ hnext hway⟩
  | case9 links place name rest mode hplace hstill hup hshort next a hlink hnext =>
    rename_i ih
    cases before with
    | nil => exact ⟨links, place, .here hplace⟩
    | cons part before =>
      obtain ⟨rfl, hrest⟩ := List.cons.inj hparts
      obtain ⟨left, base, hway⟩ := ih h hrest
      obtain ⟨mode', hdir⟩ := hway.start_directory
      exact ⟨left, base, .down hplace ⟨hstill, hup, hshort⟩ hdir hway⟩
  | _ => simp at h

/-- From a file no part leads on. -/
theorem walk_barred {d : Disk} {links : Nat} {start place : Place} {parts after : List String}
    {a : Node} (h : d.walk links start parts = .ok ⟨place, some a⟩) (ha : a.isDirectory = false)
    (hafter : after ≠ []) :
    d.walk links start (parts ++ after) = .error notDirectory := by
  fun_induction walk d links start parts with
  | case1 links place =>
    obtain ⟨n, after, rfl⟩ := List.exists_cons_of_ne_nil hafter
    simp only [Except.ok.injEq, Found.mk.injEq] at h
    rw [List.nil_append, walk, h.2]
    cases a with
    | directory mode => cases ha
    | file number => rfl
    | link target => rfl
  | case2 links place name rest mode hplace hname ih =>
    rw [List.cons_append, walk_still hplace hname, ih h]
  | case3 links place rest mode hplace _ ih =>
    rw [List.cons_append, walk_up hplace, ih h]
  | case8 place name rest mode hplace hstill hup hshort next target hnext links start ih =>
    rw [List.cons_append, walk_link hplace ⟨hstill, hup, hshort⟩ hnext, ← List.append_assoc]
    exact ih h
  | case9 links place name rest mode hplace hstill hup hshort next a hlink hnext ih =>
    rw [List.cons_append, walk_named hplace ⟨hstill, hup, hshort⟩ hnext hlink, ih h]
  | _ => simp at h

/-- What comes before the last name is walked. -/
theorem parent_way {d : Disk} {path : String} {x : Place} {ending : Ending} :
    d.parent path = .ok (x, ending) ↔ ∃ start ps left,
      d.route path = .ok (start, ps) ∧ (splitLast ps).2 = ending ∧
        Way d linkLimit start (splitLast ps).1 left x := by
  constructor
  · intro h
    obtain ⟨⟨start, ps⟩, hroute, h⟩ := bind_eq_ok.1 h
    obtain ⟨⟨place, _ | _ | _ | _⟩, hwalk, h⟩ := bind_eq_ok.1 h
    · cases h
    · cases h
      obtain ⟨left, hway⟩ := walk_way hwalk
      exact ⟨start, ps, left, hroute, rfl, hway⟩
    · cases h
    · cases h
  · rintro ⟨start, ps, left, hroute, rfl, hway⟩
    obtain ⟨mode, hx⟩ := hway.directory
    have hwalk := hway.walk []
    rw [List.append_nil, Disk.walk, hx] at hwalk
    exact bind_eq_ok.2 ⟨_, hroute, bind_eq_ok.2 ⟨_, hwalk, rfl⟩⟩

/-- The text of a path leads to the directory at `base`, by whatever links, and from there along the
names. -/
def Onward (d : Disk) (path : String) (base : Place) (x : List String) : Prop :=
  ∃ start before left, d.route path = .ok (start, before ++ x) ∧
    Way d linkLimit start before left base

namespace Onward

variable {d d' : Disk} {path : String} {base : Place} {x y : List String} {n : String}

theorem kept (h : d.Onward path base x) (hd : Kept d d') : d'.Onward path base x := by
  obtain ⟨start, before, left, hroute, hway⟩ := h
  refine ⟨start, before, left, ?_, hway.kept hd⟩
  rw [route_ok] at hroute ⊢
  rwa [hd.current]

theorem along (h : d.Onward path base (y ++ x)) (hnames : ∀ n ∈ y, EntryName n)
    (hdirs : ∀ z, z <+: y → ∃ mode, d.node? (base ++ z) = some (.directory mode)) :
    d.Onward path (base ++ y) x := by
  obtain ⟨start, before, left, hroute, hway⟩ := h
  refine ⟨start, before ++ y, left, ?_, hway.append (.along hnames hdirs)⟩
  rwa [List.append_assoc]

theorem base_directory (h : d.Onward path base x) :
    ∃ mode, d.node? base = some (.directory mode) := by
  obtain ⟨_, _, _, -, hway⟩ := h
  exact hway.directory

theorem down {mode : UInt32} (h : d.Onward path base (n :: x)) (hn : EntryName n)
    (hnext : d.node? (base ++ [n]) = some (.directory mode)) : d.Onward path (base ++ [n]) x := by
  obtain ⟨mode', hbase⟩ := h.base_directory
  obtain ⟨start, before, left, hroute, hway⟩ := h
  refine ⟨start, before ++ [n], left, ?_, hway.append (.down hbase hn.names hnext (.here hnext))⟩
  rwa [List.append_assoc]

theorem resolve (h : d.Onward path base x) : ∃ left, d.resolve path = d.walk left base x := by
  obtain ⟨start, before, left, hroute, hway⟩ := h
  refine ⟨left, ?_⟩
  unfold Disk.resolve
  rw [hroute, ← hway.walk x]
  rfl

theorem here (h : d.Onward path base []) : ∃ mode, d.find path = .ok (base, .directory mode) := by
  obtain ⟨left, hresolve⟩ := h.resolve
  obtain ⟨mode, hbase⟩ := h.base_directory
  refine ⟨mode, find_eq_ok.2 ?_⟩
  rw [hresolve, Disk.walk, hbase]

variable (hn : EntryName n)

include hn

/-- A name is looked at in the directory, if it is not the name of a link. -/
theorem last (h : d.Onward path base [n])
    (hlink : ∀ target, d.node? (base ++ [n]) ≠ some (.link target)) :
    d.resolve path = .ok ⟨base ++ [n], d.node? (base ++ [n])⟩ := by
  obtain ⟨left, hresolve⟩ := h.resolve
  obtain ⟨mode, hbase⟩ := h.base_directory
  rw [hresolve]
  cases ha : d.node? (base ++ [n]) with
  | none => rw [walk_free hbase hn.names ha]; rfl
  | some a =>
    have hnot : ∀ target, a ≠ .link target := by
      rintro target rfl
      exact hlink target ha
    rw [walk_named hbase hn.names ha hnot, Disk.walk, ha]

theorem missing (h : d.Onward path base (n :: x)) (hx : ∀ m ∈ x, EntryName m) (hx0 : x ≠ [])
    (hfree : d.node? (base ++ [n]) = none) : d.resolve path = .error noEntry := by
  obtain ⟨left, hresolve⟩ := h.resolve
  obtain ⟨mode, hbase⟩ := h.base_directory
  obtain ⟨m, x, rfl⟩ := List.exists_cons_of_ne_nil hx0
  have hm := (hx m (by simp)).name.1
  rw [hresolve, walk_free hbase hn.names hfree, if_neg (by simp [hm])]

theorem parent (h : d.Onward path base [n]) : d.parent path = .ok (base, .name n true) := by
  obtain ⟨start, before, left, hroute, hway⟩ := h
  refine parent_way.2 ⟨start, _, left, hroute, ?_, ?_⟩
  · rw [splitLast_name hn.name]
  · rw [splitLast_name hn.name]
    exact hway

end Onward

section Find

variable {d : Disk} {path : String}

theorem find_onward {base : Place} {mode : UInt32}
    (h : d.find path = .ok (base, .directory mode)) : d.Onward path base [] := by
  obtain ⟨start, hroute, hwalk⟩ := find_walked.1 h
  obtain ⟨left, hway⟩ := walk_way hwalk
  exact ⟨start, parts path, left, by rw [List.append_nil, hroute], hway⟩

end Find

end VolumeFS.Disk
