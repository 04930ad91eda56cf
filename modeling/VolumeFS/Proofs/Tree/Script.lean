import Mathlib.Data.List.Perm.Subperm
import VolumeFS.Proofs.Table
import VolumeFS.Proofs.Tree.Partial
import VolumeFS.Tree.Script

/-!
# Scripted trees are fragile

The entries of a scripted tree form a layout if each is named by the text of a
path and lies in a directory. On that layout the steps of the tree act as those
of a fragile tree, and the calls that fail are the ones laid down in the script.
-/

set_option autoImplicit false

namespace VolumeFS

section Names

theorem mem_eraseRepsLoop (names done : List String) (last k : String) :
    k ∈ List.eraseRepsBy.loop (· == ·) last names done ↔ k = last ∨ k ∈ names ∨ k ∈ done := by
  induction names generalizing last done with
  | nil =>
    simp only [List.eraseRepsBy.loop, List.mem_reverse, List.mem_cons, List.not_mem_nil, false_or]
  | cons n names ih =>
    unfold List.eraseRepsBy.loop
    by_cases h : last = n
    · subst h
      simp only [beq_self_eq_true, ih, List.mem_cons]
      tauto
    · have hb : (last == n) = false := by simpa using h
      rw [hb]
      simp only [ih, List.mem_cons]
      tauto

/-- What was kept so far is not after the last name, so that later names are new. -/
theorem eraseRepsLoop_nodup (names done : List String) (last : String)
    (hnames : (last :: names).Pairwise (· ≤ ·)) (hdone : (last :: done).Nodup)
    (hle : ∀ k ∈ done, k ≤ last) :
    (List.eraseRepsBy.loop (· == ·) last names done).Nodup := by
  induction names generalizing last done with
  | nil => exact (List.reverse_perm _).nodup_iff.2 hdone
  | cons n names ih =>
    obtain ⟨hlast, hnames⟩ := List.pairwise_cons.1 hnames
    unfold List.eraseRepsBy.loop
    by_cases h : last = n
    · subst h
      simpa using ih done last hnames hdone hle
    · have hb : (last == n) = false := by simpa using h
      have hn : last ≤ n := hlast n (by simp)
      rw [hb]
      refine ih (last :: done) n hnames (List.nodup_cons.2 ⟨fun hmem => ?_, hdone⟩) ?_
      · rcases List.mem_cons.1 hmem with he | hmem
        · exact h he.symm
        · exact h (String.le_antisymm hn (hle n hmem))
      · intro k hk
        rcases List.mem_cons.1 hk with rfl | hk
        · exact hn
        · exact String.le_trans (hle k hk) hn

theorem mem_distinctNames {names : List String} {n : String} :
    n ∈ Text.distinctNames names ↔ n ∈ names := by
  have hsorted : n ∈ Text.sortedNames names ↔ n ∈ names := List.mem_mergeSort
  rw [← hsorted, Text.distinctNames]
  rcases Text.sortedNames names with _ | ⟨first, rest⟩
  · rfl
  · exact (mem_eraseRepsLoop rest [] first n).trans (by simp)

theorem distinctNames_nodup (names : List String) : (Text.distinctNames names).Nodup := by
  have hordered := Text.sortedNames_ordered names
  rw [Text.distinctNames]
  generalize Text.sortedNames names = sorted at hordered ⊢
  rcases sorted with _ | ⟨first, rest⟩
  · exact .nil
  · exact eraseRepsLoop_nodup rest [] first hordered (by simp) (by simp)

end Names

namespace TreeScript

open VolumeFS.Tree

/-- The names in a directory are those of the paths that lie directly in it. -/
theorem nameIn_text {x y : List String} (hx : ∀ n ∈ x, IsName n) (hy : ∀ n ∈ y, IsName n)
    (hne : y ≠ []) {n : String} :
    nameIn? (Path.ofNames x).text (Path.ofNames y).text = some n ↔ y = x ++ [n] := by
  have hlead : (if (Path.ofNames x).text = "/" then ['/'] else (Path.ofNames x).text.toList ++ ['/'])
      = (Path.lead x).toList := by
    unfold Path.lead
    by_cases h0 : x = []
    · subst h0
      rfl
    · have htext : (Path.ofNames x).text ≠ "/" := fun he =>
        h0 (Path.text_injective hx (y := []) (by simp) he)
      rw [if_neg htext, if_neg h0, String.toList_append]
      rfl
  unfold nameIn?
  dsimp only
  rw [hlead]
  constructor
  · intro h
    split_ifs at h with hprefix hrest
    obtain ⟨rest, htext⟩ := List.isPrefixOf_iff_prefix.1 hprefix
    rw [← htext, List.drop_left] at h hrest
    obtain ⟨-, hslash⟩ := not_or.1 hrest
    obtain rfl : String.ofList rest = n := Option.some.inj h
    -- the two texts of `y` are cut into the same pieces
    have hfields := fields_rooted y (fun k hk => (hy k hk).2.2.2) hne
    have hpieces := Path.lead_fields hx hslash
    rw [htext] at hpieces
    have hnames : y.map String.toList = (x ++ [String.ofList rest]).map String.toList := by
      simpa using (hfields.symm.trans hpieces)
    exact List.map_injective_iff.2 (fun _ _ he => String.toList_inj.1 he) hnames
  · rintro rfl
    have hn : IsName n := hy n (by simp)
    have htext : (Path.ofNames (x ++ [n])).text.toList = (Path.lead x).toList ++ n.toList := by
      rw [Path.text_concat hy, String.toList_append]
    have hsome : ¬ (n.toList.isEmpty = true ∨ '/' ∈ n.toList) := by
      simpa using ⟨hn.1, hn.2.2.2⟩
    rw [htext, if_pos (List.isPrefixOf_iff_prefix.2 (List.prefix_append _ _)), List.drop_left,
      if_neg hsome, String.ofList_toList]

def layout (s : TreeScript) : Layout EntryKind := fun x =>
  if x = [] then some .directory
  else if ∀ n ∈ x, IsName n then s.entries.lookup (Path.ofNames x).text
  else none

/-- Each entry is named by the text of a path and lies in a directory, and nothing is listed but
entries. -/
structure WellFormed (s : TreeScript) : Prop where
  named : ∀ key ∈ Table.keys s.entries, ∃ x n, key = (Path.ofNames (x ++ [n])).text ∧
    (∀ k ∈ x ++ [n], IsName k) ∧ s.layout x = some .directory
  unhaunted : s.ghosts = []

def failures (s : TreeScript) : Failures where
  kind x := if s.failingKinds.contains (Path.ofNames x).text
    then some (.backend s!"cannot stat {(Path.ofNames x).text}") else none
  names x := if s.failingLists.contains (Path.ofNames x).text
    then some (.backend s!"cannot list {(Path.ofNames x).text}") else none
  removal x := if s.failingRemoves.contains (Path.ofNames x).text
    then some (.backend s!"cannot remove {(Path.ofNames x).text}") else none

section Layout

variable {s : TreeScript} {x : List String}

theorem layout_named (hne : x ≠ []) (hx : ∀ n ∈ x, IsName n) :
    s.layout x = s.entries.lookup (Path.ofNames x).text := by
  rw [layout, if_neg hne, if_pos hx]

theorem layout_some {a : EntryKind} (h : s.layout x = some a) :
    (∀ n ∈ x, IsName n) ∧
      (x = [] ∧ a = .directory ∨ x ≠ [] ∧ s.entries.lookup (Path.ofNames x).text = some a) := by
  unfold layout at h
  split_ifs at h with h0 hx
  · subst h0
    exact ⟨by simp, .inl ⟨rfl, (Option.some.inj h).symm⟩⟩
  · exact ⟨hx, .inr ⟨h0, h⟩⟩

theorem text_ne_root (hne : x ≠ []) (hx : ∀ n ∈ x, IsName n) : (Path.ofNames x).text ≠ "/" :=
  fun he => hne (Path.text_injective hx (y := []) (by simp) he)

/-- Besides the root there are no more places than entries. -/
theorem places_bounded {l : List (List String)} (hl : l.Nodup)
    (hthere : ∀ x ∈ l, Occupied s.layout x) : l.length ≤ s.entries.length + 1 := by
  have hbelow : ∀ x ∈ l.erase [], (∀ n ∈ x, IsName n) ∧
      (Path.ofNames x).text ∈ Table.keys s.entries := by
    intro x hx
    obtain ⟨hne, hx⟩ := hl.mem_erase_iff.1 hx
    obtain ⟨a, ha⟩ := hthere x hx
    obtain ⟨hnames, h0 | ⟨-, hlookup⟩⟩ := layout_some ha
    · exact absurd h0.1 hne
    · exact ⟨hnames, Table.mem_keys.2 ⟨a, hlookup⟩⟩
  have htexts : ((l.erase []).map fun x => (Path.ofNames x).text).Nodup :=
    (hl.erase []).map_on fun x hx y hy he =>
      Path.text_injective (hbelow x hx).1 (hbelow y hy).1 he
  have hsub : ((l.erase []).map fun x => (Path.ofNames x).text) ⊆ Table.keys s.entries := by
    intro key hkey
    obtain ⟨x, hx, rfl⟩ := List.mem_map.1 hkey
    exact (hbelow x hx).2
  have hle := (htexts.subperm hsub).length_le
  have herase : l.length - 1 ≤ (l.erase []).length := List.le_length_erase
  simp only [List.length_map, Table.keys] at hle
  omega

end Layout

namespace WellFormed

variable {s : TreeScript} (h : s.WellFormed) {x : List String}

include h

/-- The key of an entry is the text of one place only, and the place lies in a directory. -/
theorem parent {n : String} {a : EntryKind} (hx : s.layout (x ++ [n]) = some a) :
    s.layout x = some .directory := by
  obtain ⟨hnames, h0 | ⟨-, hlookup⟩⟩ := layout_some hx
  · simp at h0
  · obtain ⟨y, m, hkey, hy, hdir⟩ := h.named _ (Table.mem_keys.2 ⟨a, hlookup⟩)
    obtain ⟨rfl, -⟩ := List.append_inj' (Path.text_injective hnames hy hkey) rfl
    exact hdir

theorem mem_children (hx : ∀ n ∈ x, IsName n) {n : String} :
    n ∈ Text.distinctNames ((s.entries.map (·.1) ++ s.ghosts).filterMap
      (nameIn? (Path.ofNames x).text)) ↔ Occupied s.layout (x ++ [n]) := by
  rw [mem_distinctNames, h.unhaunted, List.append_nil, List.mem_filterMap]
  constructor
  · rintro ⟨key, hkey, hname⟩
    obtain ⟨y, m, rfl, hy, -⟩ := h.named key hkey
    have hyx := (nameIn_text hx hy (by simp)).1 hname
    obtain ⟨a, ha⟩ := Table.mem_keys.1 hkey
    rw [hyx] at hy ha
    exact ⟨a, (layout_named (by simp) hy).trans ha⟩
  · rintro ⟨a, ha⟩
    obtain ⟨hnames, h0 | ⟨hne, hlookup⟩⟩ := layout_some ha
    · simp at h0
    · exact ⟨_, Table.mem_keys.2 ⟨a, hlookup⟩, (nameIn_text hx hnames hne).2 rfl⟩

/-- Removing an entry with nothing in it takes just that entry away. -/
theorem removed {a : EntryKind} (hne : x ≠ []) (hx : s.layout x = some a)
    (hleaf : ∀ n, s.layout (x ++ [n]) = none) (log : List String) :
    layout { s with entries := Table.erase (Path.ofNames x).text s.entries, log } =
        Function.update s.layout x none ∧
      WellFormed { s with entries := Table.erase (Path.ofNames x).text s.entries, log } := by
  have hlayout : layout { s with entries := Table.erase (Path.ofNames x).text s.entries, log } =
      Function.update s.layout x none := by
    funext y
    by_cases hy : y = x
    · subst hy
      rw [Function.update_self, layout_named hne (layout_some hx).1]
      exact Table.lookup_erase_self _ _
    · rw [Function.update_of_ne hy]
      unfold layout
      split_ifs with h0 hnames
      · rfl
      · exact Table.lookup_erase_of_ne
          (fun he => hy (Path.text_injective hnames (layout_some hx).1 he)) _
      · rfl
  refine ⟨hlayout, ⟨fun key hkey => ?_, h.unhaunted⟩⟩
  obtain ⟨b, hb⟩ := Table.mem_keys.1 hkey
  have hother : key ≠ (Path.ofNames x).text := by
    rintro rfl
    rw [Table.lookup_erase_self] at hb
    cases hb
  rw [Table.lookup_erase_of_ne hother] at hb
  obtain ⟨y, n, rfl, hy, hdir⟩ := h.named key (Table.mem_keys.2 ⟨b, hb⟩)
  refine ⟨y, n, rfl, hy, ?_⟩
  rw [hlayout, Function.update_of_ne, hdir]
  -- an entry that is still there does not lie in the one that was removed
  rintro rfl
  have hchild := hleaf n
  rw [layout_named (by simp) hy, hb] at hchild
  cases hchild

end WellFormed

section Steps

variable {s : TreeScript} {x : List String}

theorem removal_of_mem (h : (Path.ofNames x).text ∈ s.failingRemoves) :
    s.failures.removal x = some (.backend s!"cannot remove {(Path.ofNames x).text}") :=
  if_pos (List.contains_iff_mem.2 h)

theorem kind_ending {a : EntryKind} (hx : s.layout x = some a) :
    ending (tree.kind (.ofNames x)) s = (Failures.ends (s.failures.kind x) (some a), s) := by
  show (TreeScript.kind (Path.ofNames x).text s, s) = _
  unfold TreeScript.kind failures
  obtain ⟨hnames, ⟨rfl, rfl⟩ | ⟨hne, hlookup⟩⟩ := layout_some hx
  · have htext : (Path.ofNames []).text = "/" := rfl
    rw [if_pos htext]
    dsimp only
    split_ifs <;> rfl
  · rw [if_neg (text_ne_root hne hnames), hlookup]
    dsimp only
    split_ifs <;> rfl

theorem children_ending (s : TreeScript) (x : List String) :
    ending (tree.childNames (.ofNames x)) s = (Failures.ends (s.failures.names x)
      (Text.distinctNames ((s.entries.map (·.1) ++ s.ghosts).filterMap
        (nameIn? (Path.ofNames x).text))), s) := by
  show (TreeScript.children (Path.ofNames x).text s, s) = _
  unfold TreeScript.children failures
  dsimp only
  split_ifs <;> rfl

theorem remove_refused {fault : Fault} (hfail : s.failures.removal x = some fault)
    (kind : EntryKind) :
    ending (tree.removeEntry (.ofNames x) kind) s = (.error fault, s) := by
  show TreeScript.remove (Path.ofNames x).text kind s = _
  unfold failures at hfail
  dsimp only at hfail
  split_ifs at hfail with hcontains
  cases hfail
  exact if_pos hcontains

theorem remove_done (hfail : s.failures.removal x = none) (kind : EntryKind) :
    ending (tree.removeEntry (.ofNames x) kind) s = (.ok (),
      { s with
        entries := Table.erase (Path.ofNames x).text s.entries
        log := s!"remove {kind.word} {(Path.ofNames x).text}" :: s.log }) := by
  show TreeScript.remove (Path.ofNames x).text kind s = _
  unfold failures at hfail
  dsimp only at hfail
  split_ifs at hfail with hcontains
  exact if_neg hcontains

end Steps

/-- On a well-formed script the steps of the tree do what is laid down. The root cannot be removed
from a script, so that below it either the root is not meant or its removal has to fail. -/
theorem fragile (script : TreeScript) {top : List String}
    (hroot : top ≠ [] ∨ "/" ∈ script.failingRemoves) :
    Fragile tree id layout (fun s => s.WellFormed ∧ s.failures = script.failures)
      script.failures top where
  names := fun s x a _ _ hx => (layout_some hx).1
  above := fun s x n a hs _ hx => ⟨_, hs.1.parent hx, rfl⟩
  kind := fun s x a hs _ hx => by
    rw [← hs.2]
    exact kind_ending hx
  childNames := fun s x d hs _ hx _ => by
    rw [← hs.2]
    exact ⟨_, children_ending s x, distinctNames_nodup _, fun n =>
      hs.1.mem_children (layout_some hx).1⟩
  removal_fails := fun s x a fault hs _ _ hfail => by
    rw [← hs.2] at hfail
    exact remove_refused hfail a
  removal := fun s x a hs htop hx hleaf hfail => by
    have hne : x ≠ [] := by
      rintro rfl
      have hkept := hroot.resolve_left (not_not.2 (List.prefix_nil.1 htop))
      rw [removal_of_mem (x := []) hkept] at hfail
      cases hfail
    rw [← hs.2] at hfail
    obtain ⟨hlayout, hwell⟩ := hs.1.removed hne hx hleaf _
    exact ⟨_, remove_done hfail a, ⟨hwell, hs.2⟩, hlayout⟩
  reach := fun s hs => ⟨s.entries.length, rfl, fun l hl hall => places_bounded hl fun x hx => by
    obtain ⟨d, hd, -⟩ := isDirectory_iff.1 (hall x hx).2
    exact ⟨d, hd⟩⟩

def cluttered : TreeScript where
  entries := [("/d", .directory), ("/d/a", .file), ("/d/b", .directory), ("/d/b/c", .file),
    ("/e", .file)]
  ghosts := []
  failingMakes := []
  failingKinds := []
  failingLists := []
  failingRemoves := ["/d/b"]
  log := []
  slept := 0

theorem cluttered_wellFormed : cluttered.WellFormed where
  named := by
    have hkeys : Table.keys cluttered.entries = ["/d", "/d/a", "/d/b", "/d/b/c", "/e"] := rfl
    rw [hkeys]
    intro key hkey
    simp only [List.mem_cons, List.not_mem_nil, or_false] at hkey
    rcases hkey with rfl | rfl | rfl | rfl | rfl
    · exact ⟨[], "d", rfl, by decide, rfl⟩
    · exact ⟨["d"], "a", rfl, by decide, rfl⟩
    · exact ⟨["d"], "b", rfl, by decide, rfl⟩
    · exact ⟨["d", "b"], "c", rfl, by decide, rfl⟩
    · exact ⟨[], "e", rfl, by decide, rfl⟩
  unhaunted := rfl

theorem cluttered_stops : ∃ (failed : List String) (left : List (List String)) (cause : Fault)
    (s' : TreeScript), ending (tree.remove (.ofNames ["d"]) true) cluttered =
      (.error (.partialDelete "/d" (Path.ofNames failed).text
        (left.map fun x => (Path.ofNames x).text) cause), s') ∧
    left.head? = some failed ∧
    ∀ x, x ∈ left ↔ ["d"] <+: x ∧ Occupied s'.layout x := by
  have hd : cluttered.layout ["d"] = some .directory := rfl
  have hb : Occupied cluttered.layout ["d", "b"] := ⟨.directory, rfl⟩
  have hfail : cluttered.failures.removal ["d", "b"] ≠ none := by
    rw [removal_of_mem (by decide)]
    simp
  have hlook : ∀ x, cluttered.failures.look id cluttered.layout x = none := by
    intro x
    unfold Failures.look
    split_ifs <;> rfl
  have hd0 : ["d"] ≠ [] := by simp
  obtain ⟨-, hclean⟩ := (fragile cluttered (.inl hd0)).remove_exact ⟨cluttered_wellFormed, rfl⟩ hd rfl
  obtain ⟨removed, left, s', -, -, -, hstops⟩ := hclean fun x _ _ => hlook x
  obtain ⟨failed, cause, hhead, -, hleft, -, hend⟩ := hstops ⟨_, by decide, hb, hfail⟩
  exact ⟨failed, left, cause, s', hend, hhead, hleft⟩

end TreeScript

end VolumeFS
