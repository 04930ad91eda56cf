import VolumeFS.Proofs.Tree.Mkdirs
import VolumeFS.Proofs.Tree.Remove
import VolumeFS.Volume

/-!
# Contents of trees

The contents of a tree are what callers can read from it: which places are
directories, and the bytes of the files. Whatever else a tree keeps about its
entries, what the operations on many entries do to the contents is told by the
contents alone.
-/

set_option autoImplicit false

namespace VolumeFS

open Volume

def Volume.Content.kind (c : Content) : EntryKind :=
  if c.isDirectory then .directory else .file

theorem Volume.Content.kind_directory {c : Content} : c.kind = .directory ↔ c = .directory := by
  cases c <;> simp [Content.kind, Content.isDirectory]

theorem Volume.Content.kind_file {c : Content} : c.kind = .file ↔ ∃ data, c = .file data := by
  cases c <;> simp [Content.kind, Content.isDirectory]

namespace Tree

abbrev Contents := Layout Content

def made (l : Contents) (x : List String) : Contents :=
  fun y => if y <+: x then some .directory else l y

theorem made_here (l : Contents) (x : List String) : made l x x = some .directory :=
  if_pos (List.prefix_refl x)

theorem made_child (l : Contents) (x : List String) (n : String) :
    made l x (x ++ [n]) = l (x ++ [n]) :=
  if_neg (below_not_above (by simp))

def moved (l : Contents) (source target : List String) : Contents := fun y =>
  if target <+: y then l (source ++ y.drop target.length)
  else if source <+: y then none
  else l y

theorem Made.contents {l l' : Contents} {x : List String} (h : Made Content.kind l l' x) :
    l' = Tree.made l x := by
  funext y
  unfold Tree.made
  split_ifs with hy
  · obtain ⟨d, hd, hdir⟩ := h.made y hy
    rw [hd, Content.kind_directory.1 hdir]
  · exact h.only y hy

/-- What is seen of the entries is made along with them. -/
theorem Made.seen {α β : Type} {kindOf : α → EntryKind} {kindOf' : β → EntryKind} (f : α → β)
    (hf : ∀ a, kindOf' (f a) = kindOf a) {l l' : Layout α} {x : List String}
    (h : Made kindOf l l' x) :
    Made kindOf' (fun y => (l y).map f) (fun y => (l' y).map f) x where
  made := by
    intro y hy
    obtain ⟨d, hd, hdir⟩ := h.made y hy
    exact ⟨f d, by rw [hd, Option.map_some], (hf d).trans hdir⟩
  kept := by
    intro y b hb
    obtain ⟨a, ha, rfl⟩ := Option.map_eq_some_iff.1 hb
    rw [h.kept y a ha, Option.map_some]
  only := by
    intro y hy
    rw [h.only y hy]

theorem Relocated.contents {l l' : Contents} {source target : List String}
    (h : Relocated l l' source target) : l' = moved l source target := by
  funext y
  unfold moved
  split_ifs with ht hs
  · obtain ⟨z, rfl⟩ := ht
    rw [List.drop_left]
    exact h.arrived z
  · exact h.left y hs ht
  · exact h.elsewhere y hs ht

theorem Relocated.seen {α β : Type} (f : α → β) {l l' : Layout α} {source target : List String}
    (h : Relocated l l' source target) :
    Relocated (fun y => (l y).map f) (fun y => (l' y).map f) source target where
  arrived := fun y => congrArg (Option.map f) (h.arrived y)
  left := fun y hs ht => Option.map_eq_none_iff.2 (h.left y hs ht)
  elsewhere := fun y hs ht => congrArg (Option.map f) (h.elsewhere y hs ht)

/-- On a clear way the only file that stops the making of directories is at the place itself. -/
theorem clear_stop {l : Contents} {x y : List String} {c : Content}
    (hclear : Clear Content.kind l x) (hy : y <+: x) (hc : l y = some c) (hfile : c.kind = .file) :
    l x = some c := by
  obtain ⟨z, rfl⟩ := hy
  by_cases hz : z = []
  · rwa [hz, List.append_nil]
  · rw [hclear y z c rfl hz hc] at hfile
    cases hfile

section Seen

variable {α β : Type} {kindOf : α → EntryKind} {f : α → β} {kindOf' : β → EntryKind}
  (hf : ∀ a, kindOf' (f a) = kindOf a)

include hf

theorem directory_seen {a? : Option α} {b : β} (hb : a?.map f = some b)
    (hdir : kindOf' b = .directory) : ∃ a, a? = some a ∧ kindOf a = .directory := by
  obtain ⟨a, ha, rfl⟩ := Option.map_eq_some_iff.1 hb
  exact ⟨a, ha, (hf a).symm.trans hdir⟩

theorem clear_seen {l : Layout α} {x : List String}
    (hclear : Clear kindOf' (fun y => (l y).map f) x) : Clear kindOf l x := by
  intro y z a hyz hz ha
  rw [← hf]
  exact hclear y z (f a) hyz hz (Option.map_eq_some_iff.2 ⟨a, ha, rfl⟩)

omit hf in
theorem update_seen (f : α → β) (l : Layout α) (x : List String) (a? : Option α) :
    (fun y => (Function.update l x a? y).map f) =
      Function.update (fun y => (l y).map f) x (a?.map f) :=
  Function.comp_update (Option.map f) l x a?

end Seen

namespace Serves

variable {α : Type} {t : Tree Run} {kindOf : α → EntryKind} {layout : World → Layout α}
  {Sound : World → Prop} {Fits : List String → Prop}

/-- A tree also serves what is seen of its entries, if that tells their kinds. -/
theorem seen {β : Type} (h : Serves t kindOf layout Sound Fits) (f : α → β)
    (kindOf' : β → EntryKind) (hf : ∀ a, kindOf' (f a) = kindOf a) :
    Serves t kindOf' (fun w x => (layout w x).map f) Sound Fits where
  root := by
    intro w hw
    obtain ⟨a, ha, hdir⟩ := h.root w hw
    exact ⟨f a, by rw [ha, Option.map_some], (hf a).trans hdir⟩
  above := by
    intro w x n b hw hb
    obtain ⟨a, ha, -⟩ := Option.map_eq_some_iff.1 hb
    obtain ⟨d, hd, hdir⟩ := h.above w x n a hw ha
    exact ⟨f d, by rw [hd, Option.map_some], (hf d).trans hdir⟩
  fits := by
    intro w x b hw hb
    obtain ⟨a, ha, -⟩ := Option.map_eq_some_iff.1 hb
    exact h.fits w x a hw ha
  fits_above := h.fits_above
  kind := by
    intro w x hw hx hclear
    rw [h.kind w x hw hx (clear_seen hf hclear), Option.map_map]
    exact congrArg (fun k => (Except.ok (Option.map k (layout w x)), w)) (funext hf).symm
  make := by
    intro w x n b hw hx hb hdir hfree
    obtain ⟨a, ha, hdir'⟩ := directory_seen hf hb hdir
    obtain ⟨w', a', hmake, hw', ha', hl'⟩ :=
      h.make w x n a hw hx ha hdir' (Option.map_eq_none_iff.1 hfree)
    exact ⟨w', f a', hmake, hw', (hf a').trans ha', by rw [hl', update_seen, Option.map_some]⟩
  childNames := by
    intro w x b hw hb hdir
    obtain ⟨a, ha, hdir'⟩ := directory_seen hf hb hdir
    obtain ⟨names, hnames, hnodup, hall⟩ := h.childNames w x a hw ha hdir'
    refine ⟨names, hnames, hnodup, fun n => (hall n).trans ?_⟩
    rw [← Option.isSome_iff_exists, ← Option.isSome_iff_exists, Option.isSome_map]
  removeEntry := by
    intro w x b hw hx hb hleaf
    obtain ⟨a, ha, rfl⟩ := Option.map_eq_some_iff.1 hb
    obtain ⟨w', hremove, hw', hl'⟩ :=
      h.removeEntry w x a hw hx ha fun n => Option.map_eq_none_iff.1 (hleaf n)
    rw [hf]
    exact ⟨w', hremove, hw', by rw [hl', update_seen, Option.map_none]⟩
  reach := by
    intro w hw
    obtain ⟨n, hn, hbound⟩ := h.reach w hw
    refine ⟨n, hn, fun l hl hdirs => hbound l hl (fun x hx => ?_)⟩
    obtain ⟨b, hb, hdir⟩ := hdirs x hx
    exact directory_seen hf hb hdir

section Contents

variable {contents : World → Contents} (h : Serves t Content.kind contents Sound Fits) {w : World}
  (hw : Sound w) {x : List String}

include h hw

/-- Making directories fails only where a file is. -/
theorem mkdirs_contents (hx : Fits x) (hclear : Clear Content.kind (contents w) x) :
    (∃ data path, contents w x = some (.file data) ∧
      outcome (t.mkdirs (.ofNames x)) w = (.error (.alreadyExists path), w)) ∨
    ((∀ data, contents w x ≠ some (.file data)) ∧ ∃ w',
      outcome (t.mkdirs (.ofNames x)) w = (.ok (), w') ∧ Sound w' ∧
        contents w' = made (contents w) x) := by
  obtain ⟨y, c, path, hy, hc, hfile, hend⟩ | ⟨w', hend, hw', hmade⟩ := h.mkdirs_outcome x hw hx
  · obtain ⟨data, rfl⟩ := Content.kind_file.1 hfile
    exact .inl ⟨data, path, clear_stop hclear hy hc hfile, hend⟩
  · refine .inr ⟨fun data hdata => ?_, w', hend, hw', hmade.contents⟩
    obtain ⟨d, hd, hdir⟩ := hmade.made x (List.prefix_refl x)
    rw [hmade.kept x _ hdata] at hd
    cases hd
    cases hdir

/-- Where nothing on the way is a file, the directory above a place can be made. -/
theorem ensureParent_contents {n : String} (hx : Fits (x ++ [n]))
    (hclear : Clear Content.kind (contents w) (x ++ [n])) :
    ∃ w', outcome (t.ensureParent (.ofNames (x ++ [n]))) w = (.ok (), w') ∧ Sound w' ∧
      contents w' = made (contents w) x := by
  obtain ⟨y, c, path, ⟨z, rfl⟩, hc, hfile, -⟩ | ⟨w', hend, hw', hmade⟩ :=
    h.ensureParent_outcome x n hw hx
  · rw [hclear y (z ++ [n]) c (List.append_assoc y z [n]) (by simp) hc] at hfile
    cases hfile
  · exact ⟨w', hend, hw', hmade.contents⟩

end Contents

end Serves

end Tree

end VolumeFS
