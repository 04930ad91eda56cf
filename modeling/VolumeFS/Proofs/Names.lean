import Mathlib.Data.List.Basic
import Mathlib.Data.List.Infix
import VolumeFS.Client

/-!
# Names, keys and resolved paths

A name is what a path can have between two slashes: it is not empty, it is
neither of the dots, and it holds no slash. Keys that were read from a text and
paths that were resolved consist of names only, and on these the text of a path,
its key and its children are what the list of names says.
-/

set_option autoImplicit false

namespace VolumeFS

open Volume

def IsName (s : String) : Prop := s ≠ "" ∧ s ≠ "." ∧ s ≠ ".." ∧ '/' ∉ s.toList

instance (s : String) : Decidable (IsName s) := inferInstanceAs (Decidable (_ ∧ _))

theorem IsName.head {n : String} (hn : IsName n) : n.toList.head? ≠ some '/' :=
  fun hslash => hn.2.2.2 (List.mem_of_head? hslash)

theorem fields_splitOn (sep : Char) (cs : List Char) : Text.fields sep cs = cs.splitOn sep := by
  induction cs with
  | nil => simp [Text.fields]
  | cons c cs ih =>
    have hne := Text.fields_ne_nil sep cs
    rw [List.splitOn_cons_eq_if_modifyHead, ← ih]
    by_cases h : c = sep
    · simp [Text.fields, h]
    · rw [if_neg (by simpa using h), Text.fields, if_neg h]
      cases hf : Text.fields sep cs with
      | nil => exact absurd hf hne
      | cons f fs => rfl

theorem fields_intercalate (names : List String) (hn : ∀ n ∈ names, '/' ∉ n.toList)
    (hne : names ≠ []) :
    Text.fields '/' ("/".intercalate names).toList = names.map String.toList := by
  have hs : "/".toList = ['/'] := rfl
  rw [fields_splitOn, String.toList_intercalate, hs]
  refine List.splitOn_intercalate '/' ?_ (by simpa using hne)
  intro l hl
  obtain ⟨n, hmem, rfl⟩ := List.mem_map.1 hl
  exact hn n hmem

theorem fields_slash (cs : List Char) : Text.fields '/' ('/' :: cs) = [] :: Text.fields '/' cs := by
  simp [Text.fields]

/-- The text of an absolute path is cut into an empty piece and the names. -/
theorem fields_rooted (names : List String) (hn : ∀ n ∈ names, '/' ∉ n.toList)
    (hne : names ≠ []) :
    Text.fields '/' ("/" ++ "/".intercalate names).toList = [] :: names.map String.toList := by
  rw [String.toList_append]
  change Text.fields '/' ('/' :: ("/".intercalate names).toList) = _
  rw [fields_slash, fields_intercalate names hn hne]

theorem fields_append (sep : Char) (before after : List Char) :
    Text.fields sep (before ++ sep :: after) =
      Text.fields sep before ++ Text.fields sep after := by
  induction before with
  | nil => simp [Text.fields]
  | cons c before ih =>
    rw [List.cons_append, Text.fields, Text.fields, ih]
    split_ifs with hc
    · rfl
    · cases hf : Text.fields sep before with
      | nil => exact absurd hf (Text.fields_ne_nil sep before)
      | cons f fs => rfl

theorem fields_slashfree {cs : List Char} (h : '/' ∉ cs) : Text.fields '/' cs = [cs] := by
  rw [fields_splitOn, List.splitOn_eq_singleton h]

theorem fields_injective (sep : Char) : Function.Injective (Text.fields sep) := by
  intro before after h
  rw [← Text.joinFields_fields sep before, h, Text.joinFields_fields]

theorem fields_name_slashfree (sep : Char) (cs : List Char) (part : String)
    (h : part ∈ (Text.fields sep cs).map String.ofList) : sep ∉ part.toList := by
  obtain ⟨f, hf, rfl⟩ := List.mem_map.1 h
  rw [String.toList_ofList]
  exact Text.not_mem_of_mem_fields sep cs f hf

theorem Text.sortedNames_ordered (names : List String) :
    (Text.sortedNames names).Pairwise (· ≤ ·) := by
  have hsorted : (Text.sortedNames names).Pairwise fun a b => decide (a ≤ b) := List.pairwise_mergeSort
    (fun a b c hab hbc => by simpa using String.le_trans (by simpa using hab) (by simpa using hbc))
    (fun a b => by simpa using String.le_total a b) names
  exact hsorted.imp (fun h => by simpa using h)

namespace Volume.Key

def Normal (k : Key) : Prop := ∀ n ∈ k.names, IsName n

theorem pushPart_names (names : List String) (part : String) (hn : ∀ n ∈ names, IsName n)
    (hp : '/' ∉ part.toList) : ∀ n ∈ pushPart names part, IsName n := by
  intro n hmem
  unfold pushPart at hmem
  split_ifs at hmem with h0 h1
  · exact hn n hmem
  · exact hn n (List.mem_of_mem_dropLast hmem)
  · rcases List.mem_append.1 hmem with hmem | hmem
    · exact hn n hmem
    · obtain rfl := List.mem_singleton.1 hmem
      exact ⟨fun h => h0 (.inl h), fun h => h0 (.inr h), h1, hp⟩

theorem pushPart_name (names : List String) {n : String} (hn : IsName n) :
    pushPart names n = names ++ [n] := by
  rw [pushPart, if_neg (by simp [hn.1, hn.2.1]), if_neg hn.2.2.1]

theorem foldl_pushPart_normal (parts names : List String) (hn : ∀ n ∈ names, IsName n)
    (hp : ∀ part ∈ parts, '/' ∉ part.toList) : ∀ n ∈ parts.foldl pushPart names, IsName n := by
  induction parts generalizing names with
  | nil => exact hn
  | cons part parts ih =>
    exact ih _ (pushPart_names names part hn (hp part (by simp)))
      (fun q hq => hp q (by simp [hq]))

theorem foldl_pushPart_names (parts names : List String) (hp : ∀ part ∈ parts, IsName part) :
    parts.foldl pushPart names = names ++ parts := by
  induction parts generalizing names with
  | nil => simp
  | cons part parts ih =>
    rw [List.foldl_cons, pushPart_name names (hp part (by simp)),
      ih _ (fun q hq => hp q (by simp [hq])), List.append_assoc, List.singleton_append]

theorem ofText_normal (text : String) : (ofText text).Normal :=
  foldl_pushPart_normal _ _ (by simp) (fun part h => fields_name_slashfree '/' _ part h)

theorem text_fields {k : Key} (hk : k.Normal) (hne : k.names ≠ []) :
    Text.fields '/' k.text.toList = [] :: k.names.map String.toList :=
  fields_rooted k.names (fun n hn => (hk n hn).2.2.2) hne

theorem root_text : root.text = "/" := rfl

/-- Reading the text of names that lead down from the root gives them back. -/
theorem ofText_rooted (names : List String) (hn : ∀ n ∈ names, IsName n) :
    ofText ("/" ++ "/".intercalate names) = ⟨names⟩ := by
  by_cases hne : names = []
  · subst hne
    rfl
  · unfold ofText
    rw [fields_rooted names (fun n h => (hn n h).2.2.2) hne]
    simp only [List.map_cons, List.map_map, List.foldl_cons]
    have hid : names.map (String.ofList ∘ String.toList) = names := by
      simp [Function.comp_def]
    have h0 : pushPart [] (String.ofList []) = [] := rfl
    rw [hid, h0, foldl_pushPart_names names [] hn, List.nil_append]

theorem ofText_text {k : Key} (hk : k.Normal) : ofText k.text = k :=
  ofText_rooted k.names hk

end Volume.Key

namespace Path

def ofNames (names : List String) : Path := ⟨none, none, true, names⟩

theorem ofNames_injective : Function.Injective ofNames := by
  intro x y h
  simpa [ofNames] using h

theorem ofNames_key {x : List String} (hx : ∀ n ∈ x, IsName n) : Client.key (ofNames x) = ⟨x⟩ :=
  Key.ofText_rooted x hx

theorem text_injective {x y : List String} (hx : ∀ n ∈ x, IsName n) (hy : ∀ n ∈ y, IsName n)
    (h : (ofNames x).text = (ofNames y).text) : x = y := by
  have hkey : Client.key (ofNames x) = Client.key (ofNames y) := congrArg Key.ofText h
  rw [ofNames_key hx, ofNames_key hy] at hkey
  exact congrArg Key.names hkey

def lead (x : List String) : String := if x = [] then "/" else (ofNames x).text ++ "/"

/-- The text of the directory and a name after it are cut into the names of the two. -/
theorem lead_fields {x : List String} (hx : ∀ k ∈ x, IsName k) {n : List Char} (hn : '/' ∉ n) :
    Text.fields '/' ((lead x).toList ++ n) = [] :: (x.map String.toList ++ [n]) := by
  have hslash : "/".toList = ['/'] := rfl
  unfold lead
  split_ifs with h0
  · rw [h0, hslash, List.singleton_append, fields_slash, fields_slashfree hn]
    rfl
  · rw [String.toList_append, hslash, List.append_assoc, List.singleton_append, fields_append,
      fields_slashfree hn]
    change Text.fields '/' ("/" ++ "/".intercalate x).toList ++ _ = _
    rw [fields_rooted x (fun k hk => (hx k hk).2.2.2) h0, List.cons_append]

theorem text_concat {x : List String} {n : String} (h : ∀ k ∈ x ++ [n], IsName k) :
    (ofNames (x ++ [n])).text = lead x ++ n := by
  refine String.toList_inj.1 (fields_injective '/' ?_)
  rw [String.toList_append, lead_fields (fun k hk => h k (by simp [hk])) (h n (by simp)).2.2.2]
  change Text.fields '/' ("/" ++ "/".intercalate (x ++ [n])).toList = _
  rw [fields_rooted _ (fun k hk => (h k hk).2.2.2) (by simp), List.map_append]
  rfl

theorem parts_name {n : String} (hn : IsName n) : parts n.toList = [n] := by
  unfold parts
  rw [fields_splitOn, List.splitOn_eq_singleton hn.2.2.2]
  simp

theorem pushPart_name (absolute : Bool) (x : List String) {n : String} (hn : IsName n) :
    pushPart absolute x n = x ++ [n] := by
  rw [pushPart, if_neg (by simp [hn.1, hn.2.1]), if_neg hn.2.2.1]

theorem ofNames_child (x : List String) {n : String} (hn : IsName n) :
    (ofNames x).child n = ofNames (x ++ [n]) := by
  simp [child, ofNames, parts_name hn, pushParts, pushPart_name true x hn]

theorem ofNames_parent (x : List String) (n : String) :
    (ofNames (x ++ [n])).parent? = some (ofNames x) := by
  simp [parent?, ofNames]

def descent (way : List String) : List String → List Path
  | [] => []
  | n :: rest => ofNames (way ++ [n]) :: descent (way ++ [n]) rest

theorem descent_range (way rest : List String) :
    descent way rest =
      (List.range rest.length).map fun i => ofNames (way ++ rest.take (i + 1)) := by
  induction rest generalizing way with
  | nil => rfl
  | cons n rest ih =>
    rw [descent, ih, List.length_cons, List.range_succ_eq_map]
    simp [Function.comp_def]

theorem ofNames_lineage (x : List String) : (ofNames x).lineage = descent [] x := by
  rw [descent_range]
  rfl

end Path

end VolumeFS
