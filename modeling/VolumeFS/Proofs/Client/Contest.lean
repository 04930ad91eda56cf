import VolumeFS.Proofs.Client.Create
import VolumeFS.Proofs.Client.Paving

/-!
# Clients that create the same file

Clients that create a file at one free place at the same time may all find it
free at first. The first to make the file there wins, and nobody but a winner
goes on to use the place. So one of them gets a stream, and each of the others
is told that the file is there already, be it by the first look or because its
call to make the file is refused.
-/

set_option autoImplicit false

namespace VolumeFS

open Volume

/-- A world in which parties create a file at one place: nothing but directories is on the way to
it, and an empty file is there from when somebody has won, not before. -/
structure Contest (ι : Type) (x : List String) (n : String) where
  world : World
  winner : Option ι
  way : ∀ y e, y <+: x → world.volume.find? ⟨y⟩ = some e → e.content = .directory
  free : winner = none → world.volume.find? ⟨x ++ [n]⟩ = none
  won : ∀ i, winner = some i → ∃ e, world.volume.find? ⟨x ++ [n]⟩ = some e ∧ e.content = .file []

namespace Contest

variable {ι : Type} {x : List String} {n : String} {t t' t'' : Contest ι x n} {i : ι}

theorem off_way {y : List String} (hy : y <+: x) : (⟨y⟩ : Key) ≠ ⟨x ++ [n]⟩ := by
  intro h
  rw [(Key.mk.inj h : y = x ++ [n])] at hy
  exact Tree.below_not_above (by simp) hy

structure Later (t t' : Contest ι x n) : Prop where
  way : ∀ y e, y <+: x → t.world.volume.find? ⟨y⟩ = some e →
    ∃ e', t'.world.volume.find? ⟨y⟩ = some e'
  winner : ∀ i, t.winner = some i → t'.winner = some i

theorem Later.refl (t : Contest ι x n) : Later t t where
  way := fun _ e _ he => ⟨e, he⟩
  winner := fun _ h => h

theorem Later.trans (h : Later t t') (h' : Later t' t'') : Later t t'' where
  way := by
    intro y e hy he
    obtain ⟨e', he'⟩ := h.way y e hy he
    exact h'.way y e' hy he'
  winner := fun i hi => h'.winner i (h.winner i hi)

def contest (ι : Type) (x : List String) (n : String) : Protocol ι World (Contest ι x n) where
  view := world
  does i t t' := Later t t' ∧ ∀ j, j ≠ i → t'.winner = some j → t.winner = some j
  sees i t t' := Later t t' ∧ (t'.winner = some i → t.winner = some i)
  sees_refl _ t := ⟨.refl t, id⟩
  sees_trans h h' := ⟨h.1.trans h'.1, fun hi => h.2 (h'.2 hi)⟩
  noticed hne h := ⟨h.1, h.2 _ hne.symm⟩

theorem quiet (t : Contest ι x n) : (contest ι x n).does i t t := ⟨.refl t, fun _ _ h => h⟩

def laid (t : Contest ι x n) {y : List String} (hy : y <+: x) (e : Entry)
    (he : e.content = .directory) : Contest ι x n where
  world := { t.world with volume := t.world.volume.put ⟨y⟩ e }
  winner := t.winner
  way := by
    intro z d hz hd
    rcases find?_put_cases hd with ⟨-, rfl⟩ | hd
    · exact he
    · exact t.way z d hz hd
  free := by
    intro hnone
    rw [find?_put_of_ne (off_way hy).symm]
    exact t.free hnone
  won := by
    intro j hj
    rw [find?_put_of_ne (off_way hy).symm]
    exact t.won j hj

theorem laid_later {y : List String} (hy : y <+: x) (e : Entry) (he : e.content = .directory) :
    Later t (t.laid hy e he) where
  way := by
    intro z d hz hd
    by_cases hk : (⟨z⟩ : Key) = ⟨y⟩
    · rw [hk]
      exact ⟨e, find?_put_self _ _ _⟩
    · exact ⟨d, (find?_put_of_ne hk _ _).trans hd⟩
  winner := fun _ hj => hj

def settled (t : Contest ι x n) (i : ι) (e : Entry) (he : e.content = .file []) :
    Contest ι x n where
  world := { t.world with volume := t.world.volume.put ⟨x ++ [n]⟩ e }
  winner := some i
  way := by
    intro z d hz hd
    rw [find?_put_of_ne (off_way hz)] at hd
    exact t.way z d hz hd
  free := by
    intro hnone
    cases hnone
  won := fun _ _ => ⟨e, find?_put_self _ _ _, he⟩

theorem settled_does {e : Entry} {he : e.content = .file []}
    (h : ∀ j, t.winner = some j → j = i) : (contest ι x n).does i t (t.settled i e he) := by
  refine ⟨⟨fun z d hz hd => ⟨d, ?_⟩, fun j hj => ?_⟩, fun j hne hj => ?_⟩
  · exact (find?_put_of_ne (off_way hz) _ _).trans hd
  · rw [h j hj]
    rfl
  · cases hj
    exact absurd rfl hne

/-- The directories down to `y` are there, and the party has not won. -/
structure Open (i : ι) (y : List String) (t : Contest ι x n) : Prop where
  within : y <+: x
  way : ∀ z, z <+: y → ∃ e, t.world.volume.find? ⟨z⟩ = some e ∧ e.content = .directory
  behind : t.winner ≠ some i

namespace Open

variable {y : List String}

theorem later (h : Open i y t) (hsees : (contest ι x n).sees i t t') : Open i y t' where
  within := h.within
  way := by
    intro z hz
    obtain ⟨e, he, -⟩ := h.way z hz
    obtain ⟨e', he'⟩ := hsees.1.way z e (hz.trans h.within) he
    exact ⟨e', he', t'.way z e' (hz.trans h.within) he'⟩
  behind := fun hi => h.behind (hsees.2 hi)

theorem child (h : Open i y t) {m : String} (hy : y ++ [m] <+: x) {e : Entry}
    (he : t.world.volume.find? ⟨y ++ [m]⟩ = some e) : Open i (y ++ [m]) t where
  within := hy
  way := by
    intro z hz
    rcases List.prefix_concat_iff.1 hz with rfl | hz
    · exact ⟨e, he, t.way _ e hy he⟩
    · exact h.way z hz
  behind := h.behind

end Open

theorem lays : Client.Lays (contest ι x n) i (Open i) x where
  quiet := quiet
  stays := fun _ _ _ ht hsees => ht.later hsees
  directory := fun y _ ht => ht.way y (List.prefix_refl y)
  child := fun _ _ _ _ hy ht he => ht.child hy he
  make := by
    intro y m t hy ht _
    have hlaid := t.laid_later hy (t.world.volume.newEntry .directory 0o755) rfl
    refine ⟨_, rfl, ⟨hlaid, fun _ _ hj => hj⟩, ?_⟩
    exact (ht.later ⟨hlaid, id⟩).child hy (find?_put_self _ _ _)

def Lost (i : ι) (t : Contest ι x n) : Prop := ∃ j, j ≠ i ∧ t.winner = some j

theorem Lost.later (h : Lost i t) (hsees : (contest ι x n).sees i t t') : Lost i t' := by
  obtain ⟨j, hne, hj⟩ := h
  exact ⟨j, hne, hsees.1.winner j hj⟩

/-- Where a party that has not won finds the file, another one has won. -/
theorem lost_of_found (hi : t.winner ≠ some i) {e : Entry}
    (he : t.world.volume.find? ⟨x ++ [n]⟩ = some e) :
    Lost i t ∧ e.content = .file [] := by
  cases hj : t.winner with
  | none =>
    rw [t.free hj] at he
    cases he
  | some j =>
    refine ⟨⟨j, fun h => hi (h ▸ hj), hj⟩, ?_⟩
    obtain ⟨e', he', hfile⟩ := t.won j hj
    cases he.symm.trans he'
    exact hfile

/-- A party that has won finds its file. -/
theorem won_later (h : t.winner = some i) (hsees : (contest ι x n).sees i t t') :
    t'.winner = some i ∧
      ∃ e, t'.world.volume.find? ⟨x ++ [n]⟩ = some e ∧ e.content = .file [] := by
  have h' := hsees.1.winner i h
  exact ⟨h', t'.won i h'⟩

end Contest

namespace Client

section Create

open Contest

variable {ι : Type} {x : List String} {n : String} {i : ι}
  (c : Client (Steps World)) (options : CreateOptions)

/-- A party has won and has its stream, or it has lost and is told that the file is there. -/
def Decided (i : ι) (result : Except Fault (OutputStream (WriteBuffer Writer)))
    (t : Contest ι x n) : Prop :=
  (t.winner = some i ∧ result = .ok (c.output ⟨⟨x ++ [n]⟩, 0⟩
    (options.bufferSize.getD c.bufferSize) (.ofNames (x ++ [n])))) ∨
  (Lost i t ∧ result = .error (.alreadyExists (Path.ofNames (x ++ [n])).text))

variable (hx : ∀ m ∈ x ++ [n], IsName m) {t : Contest ι x n}

include hx

theorem clear_contest (ht : Open i [] t) : (contest ι x n).Keeps i
    (fun result t' => result = .ok () ∧ Open i [] t' ∨
      Lost i t' ∧ result = .error (.alreadyExists (Path.ofNames (x ++ [n])).text))
    (clear (m := Steps World) (.ofNames (x ++ [n])) false).run t := by
  unfold clear
  rw [Path.ofNames_key hx]
  have hstat : Steps.Single (VolumeAccess.stat ⟨x ++ [n]⟩) (VolumeAccess.stat ⟨x ++ [n]⟩) := rfl
  refine Protocol.keeps_bind (Protocol.keeps_single hstat (outcome_stat _ t.world) (quiet t)
    fun t' hsees => ?_)
  rw [stat?]
  cases he : t.world.volume.find? ⟨x ++ [n]⟩ with
  | none => exact Or.inl ⟨rfl, ht.later hsees⟩
  | some e =>
    obtain ⟨hlost, hfile⟩ := lost_of_found ht.behind he
    have hst : e.stat.isDirectory = false := by simp [Entry.stat, hfile, Content.isDirectory]
    simp only [Option.map_some, hst]
    exact Or.inr ⟨hlost.later hsees, rfl⟩

omit hx in
/-- The call that makes the file decides. -/
theorem createFile_contest (ht : Open i x t) : (contest ι x n).Keeps i
    (fun result t' => result = .ok () ∧ t'.winner = some i ∨
      Lost i t' ∧ result = .error (.alreadyExists (Path.ofNames (x ++ [n])).text))
    (VolumeAccess.createFile (m := Steps World) ⟨x ++ [n]⟩).run t := by
  have hcreate : Steps.Single (VolumeAccess.createFile ⟨x ++ [n]⟩)
    (update (Volume.createFile ⟨x ++ [n]⟩)) := rfl
  cases he : t.world.volume.find? ⟨x ++ [n]⟩ with
  | none =>
    obtain ⟨d, hd, hdir⟩ := ht.way x (List.prefix_refl x)
    have hfree : t.winner = none := by
      by_contra hne
      obtain ⟨j, hj⟩ := Option.ne_none_iff_exists'.1 hne
      obtain ⟨e, he', -⟩ := t.won j hj
      cases he.symm.trans he'
    have hadd := add_free he hd hdir (.file []) 0o644
    let file := t.world.volume.newEntry (.file []) 0o644
    refine Protocol.keeps_single hcreate (u := t.settled i file rfl) (outcome_update_ok hadd)
      (settled_does fun j hj => ?_) fun t' hsees => .inl ⟨rfl, (won_later rfl hsees).1⟩
    cases hfree.symm.trans hj
  | some e =>
    exact Protocol.keeps_single hcreate (outcome_update_error (add_taken he _ _)) (quiet t)
      fun t' hsees => .inr ⟨(lost_of_found ht.behind he).1.later hsees, rfl⟩

theorem permit_contest (ht : t.winner = some i) (permission : Option Permission) :
    (contest ι x n).Gives i (fun _ t' => t'.winner = some i)
      (permit (m := Steps World) (.ofNames (x ++ [n])) permission) t := by
  cases permission with
  | none => exact ⟨(), rfl, ht⟩
  | some permission =>
    unfold permit
    rw [Path.ofNames_key hx]
    obtain ⟨e, he, hfile⟩ := t.won i ht
    have hchmod : Steps.Single (VolumeAccess.chmod ⟨x ++ [n]⟩ permission.mode)
      (VolumeAccess.chmod ⟨x ++ [n]⟩ permission.mode) := rfl
    let changed := { e with mode := permission.mode &&& 0o7777 }
    refine Protocol.keeps_single hchmod (u := t.settled i changed hfile) (chmod_found he _)
      (settled_does fun j hj => ?_) fun t' hsees => ⟨(), rfl, (won_later rfl hsees).1⟩
    exact Option.some.inj (hj.symm.trans ht)

omit hx in
theorem openWriter_contest (ht : t.winner = some i) :
    (contest ι x n).Gives i (fun writer t' => writer = ⟨⟨x ++ [n]⟩, 0⟩ ∧ t'.winner = some i)
      (VolumeAccess.openWriter (m := Steps World) ⟨x ++ [n]⟩) t := by
  obtain ⟨e, he, hfile⟩ := t.won i ht
  have hopen : Steps.Single (VolumeAccess.openWriter ⟨x ++ [n]⟩)
    (VolumeAccess.openWriter ⟨x ++ [n]⟩) := rfl
  exact Protocol.keeps_single hopen (outcome_openWriter (readable_file he hfile)) (quiet t)
    fun t' hsees => ⟨_, rfl, rfl, (won_later ht hsees).1⟩

theorem makeFile_contest (ht : Open i [] t) : (contest ι x n).Keeps i (Decided c options i)
    (c.makeFile (.ofNames (x ++ [n])) options).run t := by
  have hpaves := (lays (n := n) (i := i)).paves fun m hm => hx m (List.mem_append_left [n] hm)
  unfold makeFile
  refine (hpaves.ensureParent n ht).next fun _ t₁ ht₁ => ?_
  rw [Path.ofNames_key hx]
  refine Protocol.keeps_bind ((createFile_contest ht₁).mono fun result t₂ h₂ => ?_)
  obtain ⟨rfl, hwon⟩ | ⟨hlost, rfl⟩ := h₂
  · refine (permit_contest hx hwon options.permission).next fun _ t₃ hwon₃ => ?_
    refine (openWriter_contest hwon₃).next fun writer t₄ hwon₄ => ?_
    obtain ⟨rfl, hwon₄⟩ := hwon₄
    exact .inl ⟨hwon₄, rfl⟩
  · exact .inr ⟨hlost, rfl⟩

end Create

section Creators

open Contest

variable {n : Nat} (c : Fin n → Client (Steps World)) (p : Fin n → Path)
  (options : Fin n → CreateOptions) (w : World) (q : Path)

def creators : Crowd (Fin n) World (Except Fault (OutputStream (WriteBuffer Writer))) :=
  ⟨fun i => ((c i).create (p i) (options i)).run, w⟩

variable (hw : w.volume.Reachable) (hc : ∀ i, (c i).resolver.Reached) (hp : ∀ i, (p i).Normal)
  (hq : ∀ i, (c i).resolver.resolve (p i) = .ok q) (hn : 0 < n)
  (hclear : ∀ k e, k.names <+: q.segments → w.volume.find? k = some e → e.content = .directory)
  (hfree : w.volume.find? (key q) = none) (hnew : ∀ i, (options i).overwrite = false)

include hw hc hp hq hn hclear hfree hnew

/-- Of clients that create a file at the same free place and may not replace what is there, exactly
one gets a stream, in whatever order their calls come, and each other one is told that the file is
there already. -/
theorem create_exclusive : (creators c p options w).Ends fun results w' => ∃ i,
    results i = .ok ((c i).output ⟨key q, 0⟩ ((options i).bufferSize.getD (c i).bufferSize) q) ∧
    (∀ j, j ≠ i → results j = .error (.alreadyExists q.text)) ∧
    ∃ e, w'.volume.find? (key q) = some e ∧ e.content = .file [] := by
  obtain ⟨z, rfl, hz⟩ := Resolver.resolve_names (hc ⟨0, hn⟩).sound (hp _) (hq _)
  obtain ⟨r, hr, hdir⟩ := hw.wellFormed.root
  rw [Path.ofNames_key hz] at hfree ⊢
  obtain rfl | ⟨x, m, rfl⟩ := List.eq_nil_or_concat' z
  · cases hr.symm.trans hfree
  let start : Contest (Fin n) x m :=
    { world := w
      winner := none
      way := fun y e hy => hclear ⟨y⟩ e (hy.trans (List.prefix_append x [m]))
      free := fun _ => hfree
      won := fun _ h => by cases h }
  have hholds : (contest (Fin n) x m).Holds (fun i => Decided (c i) (options i) i)
      (creators c p options w) start := by
    refine ⟨rfl, fun i t hsees => ?_⟩
    have hopen : Open i [] start := by
      refine ⟨List.nil_prefix, fun y hy => ?_, by simp [start]⟩
      obtain rfl := List.prefix_nil.1 hy
      exact ⟨r, hr, hdir⟩
    have hresolved : ((c i).create (p i) (options i)).run =
        (clear (.ofNames (x ++ [m])) false >>= fun _ =>
          (c i).makeFile (.ofNames (x ++ [m])) (options i)).run := by
      unfold create resolve
      rw [hq i, hnew i]
      rfl
    change (contest (Fin n) x m).Keeps i _ ((c i).create (p i) (options i)).run t
    rw [hresolved]
    refine Protocol.keeps_bind ((clear_contest hz (hopen.later hsees)).mono fun result t' h => ?_)
    obtain ⟨rfl, ht'⟩ | ⟨hlost, rfl⟩ := h
    · exact makeFile_contest (c i) (options i) hz ht'
    · exact .inr ⟨hlost, rfl⟩
  refine hholds.ends fun results t _ hends => ?_
  obtain ⟨i, hi⟩ : ∃ i, t.winner = some i := by
    rcases hends ⟨0, hn⟩ with ⟨hwon, -⟩ | ⟨⟨j, -, hj⟩, -⟩
    · exact ⟨_, hwon⟩
    · exact ⟨j, hj⟩
  refine ⟨i, ?_, fun j hne => ?_, t.won i hi⟩
  · rcases hends i with ⟨-, hresult⟩ | ⟨⟨j, hne, hj⟩, -⟩
    · exact hresult
    · exact absurd (Option.some.inj (hj.symm.trans hi)) hne
  · rcases hends j with ⟨hj, -⟩ | ⟨-, hresult⟩
    · exact absurd (Option.some.inj (hj.symm.trans hi)) hne
    · exact hresult

end Creators

def coveted : Path := .ofNames ["a", "f"]

theorem coveted_once :
    (creators (fun _ : Fin 3 => newcomer) (fun _ => coveted) (fun _ => ⟨false, none, none⟩)
      (.ofDisk default)).Ends fun results w' => ∃ i,
        results i = .ok (newcomer.output (m := Steps World) ⟨⟨["a", "f"]⟩, 0⟩ 4 coveted) ∧
        (∀ j, j ≠ i → results j = .error (.alreadyExists "/a/f")) ∧
        ∃ e, w'.volume.find? ⟨["a", "f"]⟩ = some e ∧ e.content = .file [] := by
  have hnormal : coveted.Normal := Path.leads_names.2 (by decide)
  exact create_exclusive (fun _ => newcomer) (fun _ => coveted) (fun _ => ⟨false, none, none⟩)
    (.ofDisk default) coveted ⟨"", 0, 0, default, [], rfl⟩ (fun _ => newcomer_reached)
    (fun _ => hnormal) (fun _ => rfl) (by decide) (fun _ _ _ => untouched_directory) (by decide)
    fun _ => rfl

end Client

end VolumeFS
