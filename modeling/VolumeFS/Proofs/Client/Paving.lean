import VolumeFS.Proofs.Client.Tree
import VolumeFS.Proofs.Parallel.Mkdirs
import VolumeFS.Proofs.Path.Normal

/-!
# Directories that clients make at once

Clients that make directories on one volume at the same time only ever add
directories on the way to their places. What one of them finds there stays, so
an attempt fails only where somebody else made the directory just before. Hence
all of them succeed without a pause, and what is there in the end is what was
there before and the directories that were missing, each of them made once.
-/

set_option autoImplicit false

namespace VolumeFS

open Volume

namespace Client

theorem tree_kind_single (p : Path) :
    Steps.Single ((tree : Tree (Steps World)).kind p) ((tree : Tree Run).kind p) := rfl

theorem tree_make_single (p : Path) :
    Steps.Single ((tree : Tree (Steps World)).makeDirectory p)
      (update (Volume.makeDirectory (key p))) := rfl

/-- What a party that makes directories down to `x` has to know of a protocol: `There` tells of the
directories down to a place, and nothing but a directory can be on the way. -/
structure Lays {ι τ : Type} (P : Protocol ι World τ) (i : ι) (There : List String → τ → Prop)
    (x : List String) : Prop where
  quiet : ∀ t, P.does i t t
  stays : ∀ y t t', There y t → P.sees i t t' → There y t'
  directory : ∀ y t, There y t →
    ∃ e, (P.view t).volume.find? ⟨y⟩ = some e ∧ e.content = .directory
  child : ∀ y n t e, y ++ [n] <+: x → There y t →
    (P.view t).volume.find? ⟨y ++ [n]⟩ = some e → There (y ++ [n]) t
  make : ∀ y n t, y ++ [n] <+: x → There y t →
    (P.view t).volume.find? ⟨y ++ [n]⟩ = none → ∃ t', P.view t' = { P.view t with
      volume := (P.view t).volume.put ⟨y ++ [n]⟩
        ((P.view t).volume.newEntry .directory 0o755) } ∧ P.does i t t' ∧ There (y ++ [n]) t'

section Lays

variable {ι τ : Type} {P : Protocol ι World τ} {i : ι} {There : List String → τ → Prop}
  {x : List String} (h : Lays P i There x) (hx : ∀ n ∈ x, IsName n)

include h hx

theorem Lays.makes {y : List String} {n : String} {t : τ} (hy : y ++ [n] <+: x) (ht : There y t) :
    P.Keeps i (fun _ t' => There (y ++ [n]) t')
      ((tree : Tree (Steps World)).makeDirectory (.ofNames (y ++ [n]))).run t := by
  have hmake := tree_make_single (.ofNames (y ++ [n]))
  rw [Path.ofNames_key fun m hm => hx m (hy.subset hm)] at hmake
  cases he : (P.view t).volume.find? ⟨y ++ [n]⟩ with
  | none =>
    obtain ⟨d, hd, hdir⟩ := h.directory y t ht
    obtain ⟨t', hview, hdoes, ht'⟩ := h.make y n t hy ht he
    have hend := outcome_update_ok (w := P.view t) (add_free he hd hdir .directory 0o755)
    rw [← hview] at hend
    exact Protocol.keeps_single hmake hend hdoes fun t'' => h.stays _ t' t'' ht'
  | some e =>
    exact Protocol.keeps_single hmake (outcome_update_error (add_taken he _ _)) (h.quiet t)
      fun t' => h.stays _ t t' (h.child y n t e hy ht he)

theorem Lays.paves : P.Paves i (tree : Tree (Steps World)) There x where
  look := by
    intro y n t hy ht
    have hkind := tree_kind (fun m hm => hx m (hy.subset hm)) (P.view t)
    refine Protocol.keeps_single (tree_kind_single _) (u := t) hkind (h.quiet t)
      fun t' hsees => ?_
    unfold World.entries
    cases he : (P.view t).volume.find? ⟨y ++ [n]⟩ with
    | none => exact .inl ⟨rfl, h.makes hx hy (h.stays y t t' ht hsees)⟩
    | some e =>
      have hchild := h.child y n t e hy ht he
      obtain ⟨e', he', hdir⟩ := h.directory _ t hchild
      cases he.symm.trans he'
      refine .inr ⟨?_, h.stays _ t t' hchild hsees⟩
      rw [Option.map_some, kind_directory.2 hdir]
  again := by
    intro y n t hy ht
    obtain ⟨e, he, hdir⟩ := h.directory _ t ht
    have hkind := tree_kind (fun m hm => hx m (hy.subset hm)) (P.view t)
    refine Protocol.keeps_single (tree_kind_single _) (u := t) hkind (h.quiet t)
      fun t' hsees => ⟨?_, h.stays _ t t' ht hsees⟩
    rw [World.entries, he, Option.map_some, kind_directory.2 hdir]

end Lays

end Client

def World.withoutEntries (w : World) : World :=
  { w with volume := { w.volume with entries := [] } }

namespace Volume

variable {ι : Type} {x : ι → List String} {w w' w'' : World}

/-- Nothing was done but to make directories on the way to the places. -/
structure Paved (x : ι → List String) (w w' : World) : Prop where
  same : w'.withoutEntries = w.withoutEntries
  kept : ∀ k e, w.volume.find? k = some e → w'.volume.find? k = some e
  new : ∀ k e, w.volume.find? k = none → w'.volume.find? k = some e →
    e = w.volume.newEntry .directory 0o755 ∧ ∃ i, k.names <+: x i

namespace Paved

theorem refl (w : World) : Paved x w w where
  same := rfl
  kept := fun _ _ h => h
  new := fun k e hnone he => by
    rw [hnone] at he
    cases he

theorem newEntry (h : Paved x w w') (content : Content) (mode : UInt32) :
    w'.volume.newEntry content mode = w.volume.newEntry content mode := by
  have howner : w'.volume.owner = w.volume.owner := congrArg (·.volume.owner) h.same
  rw [Volume.newEntry, Volume.newEntry, howner]

theorem trans (h : Paved x w w') (h' : Paved x w' w'') : Paved x w w'' where
  same := h'.same.trans h.same
  kept := fun k e he => h'.kept k e (h.kept k e he)
  new := by
    intro k e hnone he
    cases hk : w'.volume.find? k with
    | none =>
      have hnew := h'.new k e hk he
      rwa [h.newEntry] at hnew
    | some e' =>
      rw [h'.kept k e' hk] at he
      cases he
      exact h.new k _ hnone hk

theorem put {y : List String} {i : ι} (hfree : w.volume.find? ⟨y⟩ = none) (hy : y <+: x i) :
    Paved x w { w with volume := w.volume.put ⟨y⟩ (w.volume.newEntry .directory 0o755) } where
  same := rfl
  kept := by
    intro k e he
    have hne : k ≠ ⟨y⟩ := by
      rintro rfl
      rw [hfree] at he
      cases he
    exact (find?_put_of_ne hne _ _).trans he
  new := by
    intro k e hnone he
    rcases find?_put_cases he with ⟨rfl, rfl⟩ | he
    · exact ⟨rfl, i, hy⟩
    · cases hnone.symm.trans he

end Paved

def paving (x : ι → List String) : Protocol ι World World where
  view := id
  does _ := Paved x
  sees _ := Paved x
  sees_refl _ := .refl
  sees_trans := .trans
  noticed _ h := h

structure Reached (x : ι → List String) (w : World) (y : List String) (w' : World) : Prop where
  paved : Paved x w w'
  way : ∀ z, z <+: y → ∃ e, w'.volume.find? ⟨z⟩ = some e ∧ e.content = .directory

namespace Reached

variable {y : List String}

theorem later (h : Reached x w y w') (hw : Paved x w' w'') : Reached x w y w'' where
  paved := h.paved.trans hw
  way := by
    intro z hz
    obtain ⟨e, he, hdir⟩ := h.way z hz
    exact ⟨e, hw.kept _ e he, hdir⟩

theorem child (h : Reached x w y w') {n : String} {e : Entry}
    (he : w'.volume.find? ⟨y ++ [n]⟩ = some e) (hdir : e.content = .directory) :
    Reached x w (y ++ [n]) w' where
  paved := h.paved
  way := by
    intro z hz
    rcases List.prefix_concat_iff.1 hz with rfl | hz
    · exact ⟨e, he, hdir⟩
    · exact h.way z hz

end Reached

end Volume

namespace Client

section Lays

variable {ι : Type} {x : ι → List String} {w : World} {i : ι}
  (hclear : ∀ i y e, y <+: x i → w.volume.find? ⟨y⟩ = some e → e.content = .directory)

include hclear

/-- What is on the way to a place is a directory at all times. -/
theorem way_directory {w' : World} (hw : Paved x w w') {y : List String} (hy : y <+: x i)
    {e : Entry} (he : w'.volume.find? ⟨y⟩ = some e) : e.content = .directory := by
  cases hk : w.volume.find? ⟨y⟩ with
  | none =>
    rw [(hw.new _ e hk he).1]
    rfl
  | some e' =>
    rw [hw.kept _ e' hk] at he
    cases he
    exact hclear i y _ hy hk

theorem paving_lays : Lays (paving x) i (Reached x w) (x i) where
  quiet := .refl
  stays := fun _ _ _ hs hsees => hs.later hsees
  directory := fun y _ hs => hs.way y (List.prefix_refl y)
  child := fun _ _ _ _ hy hs he => hs.child he (way_directory hclear hs.paved hy he)
  make := by
    intro y n s hy hs hnone
    have hput := Paved.put (x := x) hnone hy
    exact ⟨_, rfl, hput, (hs.later hput).child (find?_put_self _ _ _) rfl⟩

end Lays

def Appears (k : Key) (w w' : World) : Prop :=
  w.volume.find? k = none ∧ w'.volume.find? k ≠ none

section Together

variable {n : Nat} (c : Fin n → Client (Steps World)) (p q : Fin n → Path) (w : World)
  (hw : w.volume.Reachable) (hc : ∀ i, (c i).resolver.Reached) (hp : ∀ i, (p i).Normal)
  (hq : ∀ i, (c i).resolver.resolve (p i) = .ok (q i))
  (hclear : ∀ i k e, k.names <+: (q i).segments → w.volume.find? k = some e →
    e.content = .directory)

def makers : Crowd (Fin n) World (Except Fault Unit) :=
  ⟨fun i => ((c i).mkdirs (p i) none).run, w⟩

include hw hc hp hq hclear

theorem makers_hold : (paving fun i => (q i).segments).Holds
    (fun i result w' => result = .ok () ∧ Reached (fun i => (q i).segments) w (q i).segments w')
    (makers c p w) w where
  shared := rfl
  parties := by
    intro i w' hw'
    obtain ⟨x, hx, hnames⟩ := Resolver.resolve_names (hc i).sound (hp i) (hq i)
    obtain ⟨r, hr, hdir⟩ := hw.wellFormed.root
    have hroot : Reached (fun i => (q i).segments) w [] w := by
      refine ⟨.refl w, fun z hz => ?_⟩
      obtain rfl := List.prefix_nil.1 hz
      exact ⟨r, hr, hdir⟩
    have hsegments : (q i).segments = x := by rw [hx]; rfl
    have hlays := paving_lays (i := i) fun i y e => hclear i ⟨y⟩ e
    have hresolved : ((c i).mkdirs (p i) none).run =
        ((tree : Tree (Steps World)).mkdirs (.ofNames (q i).segments) >>= fun _ => pure ()).run := by
      have hpath : Path.ofNames (q i).segments = q i := by rw [hsegments, hx]
      unfold mkdirs resolve
      rw [hq i, hpath]
      rfl
    change (paving fun i => (q i).segments).Keeps i _ ((c i).mkdirs (p i) none).run w'
    rw [hresolved]
    refine ((hlays.paves (by rwa [hsegments])).mkdirs (hroot.later hw')).next
      fun _ w'' hw'' => ⟨rfl, hw''⟩

/-- Clients that make directories at the same time all succeed, in whatever order they look and
make, and no attempt is made again after a pause. In the end the directories that were missing on
the way to one of the paths are there, each made once, and all else is as it was. -/
theorem mkdirs_together :
    (makers c p w).Ends (fun results w' => (∀ i, results i = .ok ()) ∧
      w'.withoutEntries = w.withoutEntries ∧
      ∀ k, w'.volume.find? k =
        if w.volume.find? k = none ∧ ∃ i, k.names <+: (q i).segments
          then some (w.volume.newEntry .directory 0o755) else w.volume.find? k) ∧
    (∀ d, (makers c p w).Reaches d → d.shared.clock = w.clock) ∧
    ∀ a b a' b', (makers c p w).Reaches a → a.Move b → b.Reaches a' → a'.Move b' →
      ∀ k, Appears k a.shared b.shared → ¬ Appears k a'.shared b'.shared := by
  have hholds := makers_hold c p q w hw hc hp hq hclear
  have hpaved : ∀ {t t'}, (paving fun i => (q i).segments).Star t t' →
      Paved (fun i => (q i).segments) t t' :=
    fun h => h.keeps .refl .trans fun _ _ _ hdoes => hdoes
  refine ⟨hholds.ends fun results w' hstar hends => ⟨fun i => (hends i).1, (hpaved hstar).same, ?_⟩,
    fun d hd => ?_, fun a b a' b' ha hab hb ha' k hk hk' => ?_⟩
  · intro k
    split_ifs with hk
    · obtain ⟨hnone, i, hi⟩ := hk
      obtain ⟨e, he, -⟩ := (hends i).2.way _ hi
      rw [((hpaved hstar).new k e hnone he).1] at he
      exact he
    · cases he : w.volume.find? k with
      | some e => exact (hpaved hstar).kept k e he
      | none =>
        by_contra hne
        obtain ⟨e, he'⟩ := Option.ne_none_iff_exists'.1 hne
        exact hk ⟨he, ((hpaved hstar).new k e he he').2⟩
  · obtain ⟨w', hstar, hd'⟩ := hholds.reaches hd
    have hclock : w'.clock = w.clock := congrArg (·.clock) (hpaved hstar).same
    rwa [← hd'.shared]
  · obtain ⟨t, -, hb'⟩ := hholds.reaches (.tail ha hab)
    obtain ⟨t', hstar, ha''⟩ := hb'.reaches hb
    obtain ⟨e, he⟩ := Option.ne_none_iff_exists'.1 hk.2
    rw [← hb'.shared] at he
    have hthere := (hpaved hstar).kept k e he
    have hgone := hk'.1
    rw [← ha''.shared] at hgone
    cases hgone.symm.trans hthere

end Together

def newcomer {m : Type → Type} [Monad m] : Client m where
  volumeName := "v"
  authority := "h"
  bufferSize := 4
  resolver := ⟨Path.volumeScheme, .root⟩
  oracle := .ofTable ⟨[], [], [], []⟩
  home := .root

theorem newcomer_reached {m : Type → Type} [Monad m] :
    (newcomer : Client m).resolver.Reached :=
  have hroot : Path.root.Normal := Path.leads_nil true
  .start hroot rfl

/-- At first there is only the root. -/
theorem untouched_directory {disk : Disk} {k : Key} {e : Entry}
    (h : (World.ofDisk disk).volume.find? k = some e) : e.content = .directory := by
  simp only [World.ofDisk, find?, Volume.empty, Table.lookup_cons_eq] at h
  split_ifs at h
  · cases h
    rfl
  · cases h

def neighbours (i : Fin 2) : Path := .ofNames ["a", if i = 0 then "b" else "c"]

theorem neighbours_made : (makers (fun _ => newcomer) neighbours (.ofDisk default)).Ends
    fun results w' => (∀ i, results i = .ok ()) ∧
      w'.volume.find? ⟨["a"]⟩ = some ⟨.directory, 0o755, 0, 0⟩ := by
  have hnormal : ∀ i, (neighbours i).Normal := fun i =>
    Path.leads_names.2 (by revert i; decide)
  obtain ⟨hends, -, -⟩ := mkdirs_together (fun _ => newcomer) neighbours neighbours
    (.ofDisk default) ⟨"", 0, 0, default, [], rfl⟩ (fun _ => newcomer_reached) hnormal
    (fun _ => rfl) fun _ _ _ _ => untouched_directory
  refine hends.mono fun results w' hend => ⟨hend.1, ?_⟩
  rw [hend.2.2 ⟨["a"]⟩, if_pos ⟨rfl, 0, by decide⟩]
  rfl

end Client

end VolumeFS
