import VolumeFS.Proofs.Disk.Streams
import VolumeFS.Proofs.Mount.Tree

/-!
# Files and moves under a mount

What can be read below the mounted directory after a file was opened for
writing, was filled, or was moved with all that lies below it.
-/

set_option autoImplicit false

namespace VolumeFS

open Disk

namespace Disk

theorem refilled_same {d : Disk} {number : Nat} {data : List Byte}
    (h : (d.body number).data = data) : d.refilled number data = d := by
  have hbodies : d.bodies.modify number (fun b => { b with data }) = d.bodies := by
    refine List.ext_getElem? (fun i => ?_)
    by_cases hi : number = i
    · subst hi
      rw [List.getElem?_modify_eq]
      subst h
      unfold body
      rw [List.getD_eq_getElem?_getD]
      cases d.bodies[number]? <;> rfl
    · rw [List.getElem?_modify_ne _ _ hi]
  rw [refilled, hbodies]

theorem contents_none {d : Disk} {base x : Place} :
    d.contents base x = none ↔ d.under base x = none :=
  Option.map_eq_none_iff

/-- The bytes of other files and the place of a new one do not change what can be read. -/
theorem contents_update {d d' : Disk} {base x : Place} {a : Node}
    (hunder : d'.under base = Function.update (d.under base) x (some a))
    (hheld : ∀ y b, y ≠ x → d.under base y = some b → held d'.bodies b = held d.bodies b) :
    d'.contents base = Function.update (d.contents base) x (some (held d'.bodies a)) := by
  funext y
  rw [Disk.contents, hunder]
  by_cases hy : y = x
  · rw [hy, Function.update_self, Function.update_self]
    rfl
  · rw [Function.update_of_ne hy, Function.update_of_ne hy, Disk.contents]
    cases hb : d.under base y with
    | none => rfl
    | some b => rw [Option.map_some, Option.map_some, hheld y b hy hb]

def filed (x : Place) (d : Disk) : Disk :=
  { d with
    nodes := Table.set x (.file d.bodies.length) d.nodes
    bodies := d.bodies ++ [⟨[], 0o644⟩] }

end Disk

namespace Mount

variable {t : Mount Run} {base : Place} {d : Disk} (h : t.Holds base d)

theorem clear_under {d : Disk} {x : List String}
    (hx : Tree.Clear Volume.Content.kind (d.contents base) x) :
    Tree.Clear Node.kind (d.under base) x := by
  intro y z a hyz hz ha
  rw [← held_kind d.bodies]
  exact hx y z _ hyz hz (by rw [Disk.contents, ha, Option.map_some])

/-- A path that is too long is an error, but not that of a missing entry. -/
theorem kind_long {path : Path} (hnul : ∀ c ∈ (t.localPath path).toList, c.toNat ≠ 0)
    (hlong : pathLimit < (t.localPath path).utf8ByteSize) (w : World) :
    ∃ e, outcome (t.kind path) w = (.error (.io e), w) := by
  have hany : (t.localPath path).toList.any (·.toNat = 0) = false := by
    rw [List.any_eq_false]
    intro c hc
    simpa using hnul c hc
  have hne : t.localPath path ≠ "" := by
    intro h0
    rw [h0] at hlong
    exact absurd hlong (by decide)
  have hroute : w.disk.route (t.localPath path) = .error nameTooLong := by
    unfold route
    rw [if_neg (by simp [hany]), if_neg hne, if_pos hlong]
  have hmetadata : w.disk.metadata (t.localPath path) = .error nameTooLong := by
    unfold Disk.metadata find resolve
    rw [hroute]
    rfl
  rw [kind_outcome, hmetadata]
  exact ⟨_, rfl⟩

include h

theorem contents_file {x : List String} {data : List Byte}
    (hx : d.contents base x = some (.file data)) :
    ∃ number, d.under base x = some (.file number) ∧ (d.body number).data = data := by
  obtain ⟨a, ha, hheld⟩ := Option.map_eq_some_iff.1 hx
  cases a with
  | directory mode => cases hheld
  | file number =>
    cases hheld
    exact ⟨number, ha, rfl⟩
  | link target => exact absurd ha (h.plain.links _ target)

omit h in
theorem contents_directory {x : List String} (hx : d.contents base x = some .directory) :
    ∃ mode, d.under base x = some (.directory mode) := by
  obtain ⟨a, ha, hheld⟩ := Option.map_eq_some_iff.1 hx
  cases a with
  | directory mode => exact ⟨mode, ha⟩
  | file number => cases hheld
  | link target => cases hheld

theorem metadata_contents {x : List String} (hx : t.Fits x)
    (hclear : Tree.Clear Volume.Content.kind (d.contents base) x) :
    d.metadata (t.localPath (.ofNames x)) =
      match d.contents base x with
      | some (.file data) => .ok ⟨false, UInt64.ofNat data.length⟩
      | some .directory => .ok ⟨true, 0⟩
      | none => .error noEntry := by
  rw [metadata_below h hx (clear_under hclear)]
  cases hc : d.contents base x with
  | none => rw [contents_none.1 hc]
  | some content =>
    cases content with
    | directory =>
      obtain ⟨mode, hd⟩ := contents_directory hc
      rw [hd]
    | file data =>
      obtain ⟨number, hfile, rfl⟩ := contents_file h hc
      rw [hfile]

theorem Holds.number_lt {x : List String} {number : Nat}
    (hx : d.under base x = some (.file number)) : number < d.bodies.length :=
  h.plain.numbers _ number hx

/-- Other bytes in a file change what can be read there and nowhere else. -/
theorem Holds.refilled {x : List String} {number : Nat} (hx : d.under base x = some (.file number))
    (data : List Byte) : t.Holds base (d.refilled number data) ∧
      (d.refilled number data).contents base =
        Function.update (d.contents base) x (some (.file data)) := by
  have hplain : (d.refilled number data).Plain := h.plain.rewritten rfl (List.length_modify _ _ _)
  have hunder : (d.refilled number data).under base =
      Function.update (d.under base) x (some (.file number)) := by
    rw [← hx, Function.update_eq_self]
    rfl
  refine ⟨⟨hplain, h.seated.same rfl, h.here, h.fits⟩, ?_⟩
  have hdata : held (d.refilled number data).bodies (.file number) = .file data :=
    congrArg Volume.Content.file (body_refilled_self (h.number_lt hx) data)
  rw [← hdata]
  refine contents_update hunder (fun y b hy hb => ?_)
  cases b with
  | directory mode => rfl
  | link target => rfl
  | file other =>
    have hne : other ≠ number := by
      rintro rfl
      exact hy (List.append_cancel_left (h.plain.own _ _ other hb hx))
    exact congrArg (fun b => Volume.Content.file b.data) (body_refilled_of_ne hne data d)

/-- A new file is empty. -/
theorem Holds.filed {x : List String} {n : String} {mode : UInt32} (hx : t.Fits (x ++ [n]))
    (hd : d.under base x = some (.directory mode)) (hfree : d.under base (x ++ [n]) = none) :
    t.Holds base (d.filed (base ++ x ++ [n])) ∧
      (d.filed (base ++ x ++ [n])).under base (x ++ [n]) = some (.file d.bodies.length) ∧
      ((d.filed (base ++ x ++ [n])).body d.bodies.length).data = [] ∧
      (d.filed (base ++ x ++ [n])).contents base =
        Function.update (d.contents base) (x ++ [n]) (some (.file [])) := by
  obtain ⟨hholds, hunder⟩ : t.Holds base (d.filed (base ++ x ++ [n])) ∧ _ :=
    h.added hx hd hfree rfl rfl (by simp) (by simp [Disk.filed]) (by simp [Disk.filed])
  have hempty : ((d.filed (base ++ x ++ [n])).body d.bodies.length).data = [] := by
    simp [Disk.filed, body, List.getD_eq_getElem?_getD]
  have hdata : held (d.filed (base ++ x ++ [n])).bodies (.file d.bodies.length) = .file [] :=
    congrArg Volume.Content.file hempty
  refine ⟨hholds, by rw [hunder, Function.update_self], hempty, ?_⟩
  rw [← hdata]
  refine contents_update hunder (fun y b _ hb => ?_)
  cases b with
  | directory mode => rfl
  | link target => rfl
  | file number =>
    simp [held, Disk.filed, List.getD_eq_getElem?_getD,
      List.getElem?_append_left (h.number_lt hb)]

theorem resolveFile_below {x : List String} {n : String} {mode : UInt32} (hx : t.Fits (x ++ [n]))
    (hd : d.under base x = some (.directory mode)) :
    d.resolveFile (t.localPath (.ofNames (x ++ [n]))) =
      .ok ⟨base ++ x ++ [n], d.under base (x ++ [n])⟩ := by
  have hopen : d.Open (base ++ x) [n] := by
    intro y z a hyz hz ha
    rcases List.append_eq_singleton_iff.1 hyz.symm with ⟨rfl, -⟩ | ⟨-, h0⟩
    · rw [List.append_nil, ← Disk.under, hd] at ha
      cases ha
      rfl
    · exact absurd h0 hz
  have hhere : (d.node? (base ++ x ++ [n].dropLast)).isSome = true := by
    rw [List.dropLast_singleton, List.append_nil, ← Disk.under, hd]
    rfl
  unfold resolveFile
  rw [parent_found h hx hd]
  change d.walk linkLimit (base ++ x) [n] = _
  rw [h.plain.walk_names linkLimit [n] hd (by simpa using (fits_above hx).2) hopen, if_pos hhere,
    under_child]

/-- A file that is opened for writing is empty, and it is made if it is not there. -/
theorem openWriter_below {x : List String} {n : String} (hx : t.Fits (x ++ [n]))
    (hd : d.contents base x = some .directory)
    (hfree : d.contents base (x ++ [n]) ≠ some .directory) :
    ∃ number d', openWriter (t.localPath (.ofNames (x ++ [n]))) d = .ok (⟨some number, 0⟩, d') ∧
      t.Holds base d' ∧ d'.under base (x ++ [n]) = some (.file number) ∧
      (d'.body number).data = [] ∧
      d'.contents base = Function.update (d.contents base) (x ++ [n]) (some (.file [])) := by
  obtain ⟨mode, hdir⟩ := contents_directory hd
  unfold openWriter
  rw [resolveFile_below h hx hdir]
  cases hc : d.contents base (x ++ [n]) with
  | none =>
    have hnone := contents_none.1 hc
    refine ⟨d.bodies.length, d.filed (base ++ x ++ [n]), ?_, h.filed hx hdir hnone⟩
    rw [hnone]
    rfl
  | some content =>
    cases content with
    | directory => exact absurd hc hfree
    | file data =>
      obtain ⟨number, hfile, -⟩ := contents_file h hc
      obtain ⟨hholds, hcontents⟩ := h.refilled hfile []
      refine ⟨number, d.refilled number [], ?_, hholds, hfile,
        body_refilled_self (h.number_lt hfile) [], hcontents⟩
      rw [hfile]
      rfl

omit h in
theorem relocated_under {d' : Disk} {source target : List String}
    (hr : Tree.Relocated d.node? d'.node? (base ++ source) (base ++ target)) :
    Tree.Relocated (d.under base) (d'.under base) source target where
  arrived := by
    intro y
    rw [Disk.under, Disk.under, ← List.append_assoc, ← List.append_assoc]
    exact hr.arrived y
  left := fun x hs ht => hr.left _ ((List.prefix_append_right_inj base).2 hs)
    (fun h => ht ((List.prefix_append_right_inj base).1 h))
  elsewhere := fun x hs ht => hr.elsewhere _
    (fun h => hs ((List.prefix_append_right_inj base).1 h))
    (fun h => ht ((List.prefix_append_right_inj base).1 h))

/-- A move takes along all that lies below, if the system takes the paths that this leads to. -/
theorem Holds.relocated {source x : List String} {n : String} {mode : UInt32}
    (hx : t.Fits (x ++ [n])) (hfree : d.under base (x ++ [n]) = none)
    (hd : d.under base x = some (.directory mode)) (hsource : source ≠ [])
    (hout : ¬ source <+: x ++ [n])
    (hroom : ∀ y a, d.under base (source ++ y) = some a → t.Fits (x ++ [n] ++ y)) :
    t.Holds base (d.relocate (base ++ source) (base ++ (x ++ [n]))) ∧
      (d.relocate (base ++ source) (base ++ (x ++ [n]))).contents base =
        Tree.moved (d.contents base) source (x ++ [n]) := by
  have hmoved := h.plain.relocate_layout (base ++ source) hfree
  have hunder := relocated_under hmoved
  have hout' : ¬ base ++ source <+: base ++ x ++ [n] := by
    rwa [List.append_assoc, List.prefix_append_right_inj]
  refine ⟨⟨?_, h.seated.same rfl, ?_, fun z a hz => ?_⟩, ?_⟩
  · rw [under_child] at hfree
    rw [← List.append_assoc]
    exact h.plain.relocated (fits_above hx).2 hfree hd hout'
  · obtain ⟨mode', hbase⟩ := h.here
    refine ⟨mode', ?_⟩
    rw [hmoved.elsewhere base (Tree.below_not_above hsource) (Tree.below_not_above (by simp)),
      hbase]
  · obtain ⟨y, rfl, hy⟩ | ⟨-, hz⟩ := hunder.came hz
    · exact hroom y a hy
    · exact h.fits z a hz
  · exact (hunder.seen (held d.bodies)).contents

section Rename

variable {source target : List String} {a : Node} (hsource : source ≠ [])
  (ha : d.under base source = some a) (hfits : t.Fits target)
  (hclear : Tree.Clear Volume.Content.kind (d.contents base) target) (hne : target ≠ [])

include ha hsource hfits hclear hne

/-- Where the directory of the target is missing, there is no entry for the system. -/
theorem rename_orphan (hmissing : d.contents base target.dropLast = none) :
    Disk.rename (t.localPath (.ofNames source)) (t.localPath (.ofNames target)) d =
      .error noEntry := by
  rcases List.eq_nil_or_concat' source with rfl | ⟨x, m, rfl⟩
  · exact absurd rfl hsource
  rcases List.eq_nil_or_concat' target with rfl | ⟨z, n, rfl⟩
  · exact absurd rfl hne
  rw [List.dropLast_concat, contents_none] at hmissing
  obtain ⟨mode, hx⟩ := h.above ha
  have htarget := parent_below h hfits (clear_under hclear)
  rw [hmissing] at htarget
  unfold Disk.rename
  rw [parent_found h (h.fits _ a ha) hx, htarget]
  rfl

theorem rename_below (hthere : d.contents base target.dropLast ≠ none)
    (hfree : d.contents base target = none) (hout : ¬ source <+: target)
    (hroom : ∀ y b, d.under base (source ++ y) = some b → t.Fits (target ++ y)) :
    ∃ d', Disk.rename (t.localPath (.ofNames source)) (t.localPath (.ofNames target)) d = .ok d' ∧
      t.Holds base d' ∧ d'.contents base = Tree.moved (d.contents base) source target := by
  rcases List.eq_nil_or_concat' source with rfl | ⟨x, m, rfl⟩
  · exact absurd rfl hsource
  rcases List.eq_nil_or_concat' target with rfl | ⟨z, n, rfl⟩
  · exact absurd rfl hne
  rw [List.dropLast_concat] at hthere
  have hout' : ¬ z ++ [n] <+: x ++ [m] := by
    intro hpre
    have hnone : d.contents base (x ++ [m]) = none :=
      ((contents_served t base).rooted (w := .ofDisk d) h).nothing_within hfree hpre
    rw [contents_none.1 hnone] at ha
    cases ha
  obtain ⟨mode, hx⟩ := h.above ha
  obtain ⟨content, hcontent⟩ := Option.ne_none_iff_exists'.1 hthere
  have hz := Volume.Content.kind_directory.1 (hclear z [n] content rfl (by simp) hcontent)
  rw [hz] at hcontent
  obtain ⟨mode', hd⟩ := contents_directory hcontent
  have hnone := contents_none.1 hfree
  obtain ⟨hholds, hmoved⟩ := h.relocated hfits hnone hd hsource hout hroom
  refine ⟨_, ?_, hholds, hmoved⟩
  have hsourceFits := h.fits _ a ha
  rw [← List.append_assoc, ← List.append_assoc]
  refine rename_free (parent_found h hsourceFits hx) (fits_above hsourceFits).2
    (parent_found h hfits hd) (fits_above hfits).2 (a := a) ?_ ?_ ?_ ?_
  · rwa [← under_child]
  · rwa [← under_child]
  · rwa [List.append_assoc, List.append_assoc, List.prefix_append_right_inj]
  · rwa [List.append_assoc, List.append_assoc, List.prefix_append_right_inj]

end Rename

end Mount

end VolumeFS
