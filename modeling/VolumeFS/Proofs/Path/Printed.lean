import Mathlib
import VolumeFS.Proofs.Path.Normal

/-!
# Printed paths

Every text that is read as a path gives one in canonical form: the segments are
in normal form, and before them stands nothing or a scheme in small letters and
perhaps an authority. What a path in canonical form prints is read as that path
again, but for the path `.`, which prints nothing. No slash of a printed path
stands beside another one, so it cannot be taken for a scheme where there is
none, and the first `://` of a qualified path ends its scheme.
-/

set_option autoImplicit false

namespace VolumeFS

namespace Text

theorem cutAt?_absent {sep text : List Char} (h : ¬ sep <:+: text) : cutAt? sep text = none := by
  induction text with
  | nil =>
    have hsep : sep.isEmpty = false := by
      cases sep with
      | nil => exact absurd List.nil_infix h
      | cons c sep => rfl
    rw [cutAt?, hsep]
    rfl
  | cons c text ih =>
    obtain ⟨hhere, hlater⟩ := not_or.1 (mt List.infix_cons_iff.2 h)
    rw [cutAt?, if_neg (mt List.isPrefixOf_iff_prefix.1 hhere), ih hlater]
    rfl

/-- The text is cut where the first character of the separator occurs first. -/
theorem cutAt?_first {c : Char} {before : List Char} (h : c ∉ before) (sep after : List Char) :
    cutAt? (c :: sep) (before ++ c :: sep ++ after) = some (before, after) := by
  induction before with
  | nil =>
    have hhere : (c :: sep) <+: c :: sep ++ after := List.prefix_append _ _
    rw [List.nil_append, List.cons_append, cutAt?, ← List.cons_append,
      if_pos (List.isPrefixOf_iff_prefix.2 hhere), List.drop_left]
  | cons d before ih =>
    obtain ⟨hd, hbefore⟩ := not_or.1 (mt List.mem_cons.2 h)
    have hhere : ¬ (c :: sep) <+: d :: (before ++ c :: sep ++ after) :=
      fun hprefix => hd (List.cons_prefix_cons.1 hprefix).1
    rw [List.cons_append, List.cons_append, cutAt?,
      if_neg (mt List.isPrefixOf_iff_prefix.1 hhere), ih hbefore]
    rfl

theorem lower_toList (s : String) : (lower s).toList = s.toList.map Char.toLower :=
  String.toList_ofList

theorem lower_lower (s : String) : lower (lower s) = lower s := by
  apply String.toList_inj.1
  rw [lower_toList, lower_toList, List.map_map]
  exact List.map_congr_left fun c _ => Char.toLower_toLower_eq_toLower c

end Text

namespace Path

section Scheme

def isSchemeChar (c : Char) : Bool := c.isAlphanum || c == '+' || c == '-' || c == '.'

theorem isScheme_cons (c : Char) (cs : List Char) :
    isScheme (c :: cs) = (c.isAlpha && cs.all isSchemeChar) := rfl

theorem isSchemeChar_toLower {c : Char} (h : isSchemeChar c = true) :
    isSchemeChar c.toLower = true := by
  by_cases hc : c.isAlpha = true
  · have hlow : c.toLower.isAlpha = true := (Char.isAlpha_toLower_eq_isAlpha c).trans hc
    simp [isSchemeChar, Char.isAlphanum, hlow]
  · have hup : ¬ c.isUpper = true := fun hup => hc (by simp [Char.isAlpha, hup])
    rwa [Char.toLower_eq_of_not_isUpper hup]

theorem isScheme_lower {scheme : List Char} (h : isScheme scheme = true) :
    isScheme (Text.lower (String.ofList scheme)).toList = true := by
  rw [Text.lower_toList, String.toList_ofList]
  cases scheme with
  | nil => exact h
  | cons c cs =>
    rw [isScheme_cons, Bool.and_eq_true] at h
    rw [List.map_cons, isScheme_cons, Bool.and_eq_true]
    refine ⟨(Char.isAlpha_toLower_eq_isAlpha c).trans h.1, ?_⟩
    rw [List.all_map]
    exact List.all_eq_true.2 fun d hd => isSchemeChar_toLower (List.all_eq_true.1 h.2 d hd)

theorem isScheme_colonless {scheme : List Char} (h : isScheme scheme = true) : ':' ∉ scheme := by
  cases scheme with
  | nil => exact List.not_mem_nil
  | cons c cs =>
    rw [isScheme_cons, Bool.and_eq_true] at h
    intro hmem
    rcases List.mem_cons.1 hmem with rfl | hmem
    · exact absurd h.1 (by decide)
    · exact absurd (List.all_eq_true.1 h.2 ':' hmem) (by decide)

end Scheme

/-- Segments in normal form, with nothing before them or a scheme in small letters and perhaps an
authority. -/
structure Canonical (p : Path) : Prop where
  normal : p.Normal
  unqualified : p.scheme = none → p.authority = none
  scheme : ∀ scheme, p.scheme = some scheme →
    isScheme scheme.toList = true ∧ Text.lower scheme = scheme ∧ p.absolute = true
  authority : ∀ authority, p.authority = some authority →
    authority ≠ "" ∧ '/' ∉ authority.toList

/-- What stands before the path in a text that starts with a scheme. -/
theorem qualifier?_cut {text scheme rest : List Char}
    (hcut : Text.cutAt? [':', '/', '/'] text = some (scheme, rest))
    (hscheme : isScheme scheme = true) :
    qualifier? text = some (Text.lower (String.ofList scheme),
      if (rest.takeWhile (· ≠ '/')).isEmpty then none
      else some (String.ofList (rest.takeWhile (· ≠ '/'))), rest.dropWhile (· ≠ '/')) := by
  unfold qualifier?
  rw [hcut]
  dsimp only
  rw [if_pos hscheme, List.span_eq_takeWhile_dropWhile]

theorem qualifier?_absent {text : List Char} (h : ¬ ['/', '/'] <:+: text) :
    qualifier? text = none := by
  have hcut : Text.cutAt? [':', '/', '/'] text = none :=
    Text.cutAt?_absent fun hsep => h ((List.suffix_cons _ _).isInfix.trans hsep)
  unfold qualifier?
  rw [hcut]

theorem qualifier?_canonical {text rest : List Char} {scheme : String} {authority : Option String}
    (h : qualifier? text = some (scheme, authority, rest)) :
    (isScheme scheme.toList = true ∧ Text.lower scheme = scheme) ∧
      ∀ a, authority = some a → a ≠ "" ∧ '/' ∉ a.toList := by
  cases hcut : Text.cutAt? [':', '/', '/'] text with
  | none =>
    rw [qualifier?, hcut] at h
    cases h
  | some cut =>
    obtain ⟨before, after⟩ := cut
    by_cases hscheme : isScheme before = true
    · rw [qualifier?_cut hcut hscheme] at h
      cases h
      refine ⟨⟨isScheme_lower hscheme, Text.lower_lower _⟩, fun a ha => ?_⟩
      split_ifs at ha with hempty
      cases ha
      rw [← String.toList_inj.ne, String.toList_ofList]
      exact ⟨fun h0 => hempty (List.isEmpty_iff.2 h0),
        fun hmem => by simpa using List.mem_takeWhile_imp hmem⟩
    · rw [qualifier?, hcut] at h
      dsimp only at h
      rw [if_neg hscheme] at h
      cases h

theorem parse_canonical {text : String} {p : Path} (h : parse text = .ok p) : p.Canonical := by
  have hnormal := parse_normal h
  unfold parse at h
  split_ifs at h
  split at h
  · next scheme authority rest hqualifier =>
    obtain ⟨hscheme, hauthority⟩ := qualifier?_canonical hqualifier
    cases h
    refine ⟨hnormal, fun hnone => (nomatch hnone), fun s hs => ?_, hauthority⟩
    cases hs
    exact ⟨hscheme.1, hscheme.2, rfl⟩
  · cases h
    exact ⟨hnormal, fun _ => rfl, fun _ hs => (nomatch hs), fun _ ha => (nomatch ha)⟩

section Slashes

theorem leads_filled {absolute : Bool} {segments : List String} (h : Leads absolute segments) :
    ∀ s ∈ segments, s ≠ "" := by
  obtain ⟨out, down, rfl, hdown, -⟩ := h
  intro s hs
  rcases List.mem_append.1 hs with hs | hs
  · rw [List.eq_of_mem_replicate hs]
    decide
  · exact (hdown s hs).1

variable {absolute : Bool} {segments : List String} (h : Leads absolute segments)

include h

/-- Every slash between segments stands between two of them. -/
theorem slash_between {before after : List Char}
    (hslash : ("/".intercalate segments).toList = before ++ '/' :: after) :
    before ≠ [] ∧ after ≠ [] ∧ after.head? ≠ some '/' := by
  have hne : segments ≠ [] := by
    rintro rfl
    exact List.cons_ne_nil _ _ (List.append_eq_nil_iff.1 hslash.symm).2
  have hfields := fields_intercalate segments (leads_slashfree h) hne
  rw [hslash, fields_append] at hfields
  have hfilled : [] ∉ Text.fields '/' before ++ Text.fields '/' after := by
    rw [hfields]
    intro hmem
    obtain ⟨s, hs, h0⟩ := List.mem_map.1 hmem
    exact leads_filled h s hs (String.toList_eq_nil_iff.1 h0)
  refine ⟨?_, ?_, ?_⟩
  · rintro rfl
    exact hfilled (List.mem_append_left _ List.mem_cons_self)
  · rintro rfl
    exact hfilled (List.mem_append_right _ List.mem_cons_self)
  · intro hhead
    obtain ⟨rest, rfl⟩ := List.head?_eq_some_iff.1 hhead
    rw [fields_slash] at hfilled
    exact hfilled (List.mem_append_right _ List.mem_cons_self)

theorem joined_head : ("/".intercalate segments).toList.head? ≠ some '/' := by
  intro hhead
  obtain ⟨rest, hrest⟩ := List.head?_eq_some_iff.1 hhead
  rw [← List.nil_append ('/' :: rest)] at hrest
  exact (slash_between h hrest).1 rfl

theorem joined_last : ("/".intercalate segments).toList.getLast? ≠ some '/' := by
  intro hlast
  obtain ⟨rest, hrest⟩ := List.getLast?_eq_some_iff.1 hlast
  exact (slash_between h hrest).2.1 rfl

theorem joined_single : ¬ ['/', '/'] <:+: ("/".intercalate segments).toList := by
  rintro ⟨before, after, hinfix⟩
  rw [List.append_assoc] at hinfix
  exact (slash_between h hinfix.symm).2.2 rfl

theorem joined_empty : "/".intercalate segments = "" ↔ segments = [] := by
  constructor
  · intro h0
    by_contra hne
    have hfields := fields_intercalate segments (leads_slashfree h) hne
    obtain ⟨s, rest, rfl⟩ := List.exists_cons_of_ne_nil hne
    rw [h0] at hfields
    exact leads_filled h s List.mem_cons_self
      (String.toList_eq_nil_iff.1 (List.cons.inj hfields).1.symm)
  · rintro rfl
    rfl

/-- The parts of the text of segments put these together again. -/
theorem pushParts_joined :
    pushParts absolute [] (parts ("/".intercalate segments).toList) = segments := by
  by_cases hne : segments = []
  · rw [hne]
    rfl
  · have hparts : parts ("/".intercalate segments).toList = segments := by
      rw [parts, fields_intercalate segments (leads_slashfree h) hne, List.map_map]
      exact List.map_id'' (fun _ => String.ofList_toList) segments
    rw [hparts, pushParts_leads h]

end Slashes

theorem text_relative {p : Path} (h : p.absolute = false) :
    p.text = "/".intercalate p.segments := by
  simp [text, h]

theorem text_absolute {p : Path} (h : p.absolute = true) :
    p.text.toList = '/' :: ("/".intercalate p.segments).toList := by
  rw [text, if_pos h, String.toList_append]
  rfl

theorem pushParts_text {p : Path} (hp : p.Normal) :
    pushParts p.absolute [] (parts p.text.toList) = p.segments := by
  cases habs : p.absolute with
  | false =>
    rw [text_relative habs, ← habs]
    exact pushParts_joined hp
  | true =>
    have hskip : parts ('/' :: ("/".intercalate p.segments).toList) =
        "" :: parts ("/".intercalate p.segments).toList := by
      rw [parts, fields_slash]
      rfl
    rw [text_absolute habs, hskip, ← habs]
    exact pushParts_joined hp

/-- No two slashes stand side by side. -/
theorem text_single {p : Path} (hp : p.Normal) : ¬ ['/', '/'] <:+: p.text.toList := by
  cases habs : p.absolute with
  | false =>
    rw [text_relative habs]
    exact joined_single hp
  | true =>
    rw [text_absolute habs, List.infix_cons_iff]
    rintro (hhere | hlater)
    · obtain ⟨rest, hrest⟩ := (List.cons_prefix_cons.1 hhere).2
      exact joined_head hp (by rw [← hrest]; rfl)
    · exact joined_single hp hlater

theorem text_head {p : Path} (hp : p.Normal) :
    decide (p.text.toList.head? = some '/') = p.absolute := by
  cases habs : p.absolute with
  | false =>
    rw [text_relative habs]
    exact decide_eq_false (joined_head hp)
  | true =>
    rw [text_absolute habs]
    rfl

theorem text_empty {p : Path} (hp : p.Normal) :
    p.text = "" ↔ p.absolute = false ∧ p.segments = [] := by
  cases habs : p.absolute with
  | false => rw [text_relative habs, joined_empty hp, and_iff_right rfl]
  | true =>
    rw [← String.toList_inj, text_absolute habs]
    simp

/-- One slash at the beginning, no two side by side, and none at the end but for the root. -/
structure SingleSlashes (p : Path) : Prop where
  first : ∃ rest, p.text.toList = '/' :: rest ∧ rest.head? ≠ some '/'
  apart : ¬ ['/', '/'] <:+: p.text.toList
  last : p.text.toList.getLast? = some '/' ↔ p.isRoot = true

theorem singleSlashes {p : Path} (hp : p.Normal) (habs : p.absolute = true) :
    p.SingleSlashes where
  first := ⟨_, text_absolute habs, joined_head hp⟩
  apart := text_single hp
  last := by
    rw [text_absolute habs, isRoot, habs, Bool.true_and, List.isEmpty_iff, ← joined_empty hp,
      ← String.toList_eq_nil_iff]
    cases hjoined : ("/".intercalate p.segments).toList with
    | nil => simp
    | cons c cs =>
      rw [List.getLast?_cons_cons, ← hjoined]
      exact iff_of_false (joined_last hp) (by rw [hjoined]; exact List.cons_ne_nil c cs)

theorem display_unqualified {p : Path} (h : p.scheme = none) : p.display = p.text := by
  rw [display, h]

theorem display_scheme {p : Path} {scheme : String} (h : p.scheme = some scheme) :
    p.display.toList = scheme.toList ++ ':' :: ['/', '/'] ++
      ((p.authority.getD "").toList ++ p.text.toList) := by
  have hsep : "://".toList = ':' :: ['/', '/'] := rfl
  rw [display, h]
  dsimp only
  rw [String.toList_append, String.toList_append, String.toList_append, hsep, List.append_assoc]

/-- The scheme of a printed path ends at its first `://`, and the authority at the slash after it. -/
theorem qualifier?_display {p : Path} (hp : p.Canonical) {scheme : String}
    (hscheme : p.scheme = some scheme) :
    qualifier? p.display.toList = some (scheme, p.authority, p.text.toList) := by
  obtain ⟨hchars, hlower, habs⟩ := hp.scheme scheme hscheme
  have hcut := Text.cutAt?_first (isScheme_colonless hchars) ['/', '/']
    ((p.authority.getD "").toList ++ p.text.toList)
  have hslashfree : ∀ c ∈ (p.authority.getD "").toList, decide (c ≠ '/') = true := by
    intro c hc
    refine decide_eq_true ?_
    rintro rfl
    cases hauthority : p.authority with
    | none =>
      rw [hauthority] at hc
      cases hc
    | some authority =>
      rw [hauthority] at hc
      exact (hp.authority authority hauthority).2 hc
  rw [display_scheme hscheme, qualifier?_cut hcut hchars,
    List.takeWhile_append_of_pos hslashfree, List.dropWhile_append_of_pos hslashfree,
    text_absolute habs, List.takeWhile_cons_of_neg (by decide),
    List.dropWhile_cons_of_neg (by decide), List.append_nil, String.ofList_toList,
    String.ofList_toList, hlower]
  cases hauthority : p.authority with
  | none => rfl
  | some authority =>
    have hne := (hp.authority authority hauthority).1
    rw [Option.getD_some, if_neg fun h0 => hne (String.toList_eq_nil_iff.1 (List.isEmpty_iff.1 h0))]

/-- What a path in canonical form prints is read as this path. -/
theorem parse_display {p : Path} (hp : p.Canonical) (hne : p ≠ here) :
    parse p.display = .ok p := by
  cases hscheme : p.scheme with
  | none =>
    have hauthority := hp.unqualified hscheme
    have hfilled : p.text ≠ "" := by
      intro h0
      obtain ⟨habs, hnil⟩ := (text_empty hp.normal).1 h0
      cases p
      subst hscheme hauthority habs hnil
      exact hne rfl
    rw [display_unqualified hscheme, parse, if_neg hfilled,
      qualifier?_absent (text_single hp.normal)]
    dsimp only
    rw [text_head hp.normal, pushParts_text hp.normal]
    cases p
    subst hscheme hauthority
    rfl
  | some scheme =>
    have hfilled : p.display ≠ "" := by
      intro h0
      have hlist := display_scheme hscheme
      rw [h0] at hlist
      simp at hlist
    obtain ⟨-, -, habs⟩ := hp.scheme scheme hscheme
    rw [parse, if_neg hfilled, qualifier?_display hp hscheme]
    dsimp only
    have hsegments := pushParts_text hp.normal
    rw [habs] at hsegments
    rw [hsegments]
    cases p
    subst hscheme habs
    rfl

theorem parse_here : parse "." = .ok here := rfl

def Parsed (p : Path) : Prop := ∃ text, parse text = .ok p

/-- The paths in canonical form are those that are read from texts. -/
theorem parsed_iff {p : Path} : p.Parsed ↔ p.Canonical := by
  constructor
  · rintro ⟨text, h⟩
    exact parse_canonical h
  · intro hp
    by_cases hne : p = here
    · exact ⟨".", hne ▸ parse_here⟩
    · exact ⟨p.display, parse_display hp hne⟩

theorem display_empty {p : Path} (hp : p.Canonical) : p.display = "" ↔ p = here := by
  constructor
  · intro h0
    by_contra hne
    have hparse := parse_display hp hne
    rw [h0] at hparse
    cases hparse
  · rintro rfl
    rfl

/-- Different paths print different texts. -/
theorem display_injective {p q : Path} (hp : p.Canonical) (hq : q.Canonical)
    (h : q.display = p.display) : q = p := by
  by_cases hne : p = here
  · rw [hne, (display_empty hq).1 (h.trans ((display_empty hp).2 hne))]
  · have hne' : q ≠ here := fun h0 => hne ((display_empty hp).1 (h ▸ (display_empty hq).2 h0))
    have hparse := parse_display hq hne'
    rw [h, parse_display hp hne] at hparse
    exact (Except.ok.inj hparse).symm

/-- Printing and reading are inverse, but for the path `.`; no two paths print the same text, and
the text of an absolute path has single slashes only. -/
theorem printed_back {text : String} {p : Path} (h : parse text = .ok p) :
    (p ≠ here → parse p.display = .ok p) ∧
    (p = here → p.display = "" ∧ parse p.display = .error (.invalidPath "empty path")) ∧
    (∀ other q, parse other = .ok q → q.display = p.display → q = p) ∧
    (p.absolute = true → p.SingleSlashes) := by
  have hp := parse_canonical h
  refine ⟨parse_display hp, ?_, fun other q hq => display_injective hp (parse_canonical hq),
    singleSlashes hp.normal⟩
  rintro rfl
  exact ⟨rfl, rfl⟩

/-- A scheme in capitals, an authority with a colon, and another `://` among the segments. -/
theorem crowded_printed_back :
    parse "GlusterFS://h:1//../a/./b://c/../d/" =
      .ok ⟨some "glusterfs", some "h:1", true, ["a", "b:", "d"]⟩ ∧
    parse "glusterfs://h:1/a/b:/d" =
      .ok ⟨some "glusterfs", some "h:1", true, ["a", "b:", "d"]⟩ ∧
    SingleSlashes ⟨some "glusterfs", some "h:1", true, ["a", "b:", "d"]⟩ := by
  have hparse : parse "GlusterFS://h:1//../a/./b://c/../d/" =
      .ok ⟨some "glusterfs", some "h:1", true, ["a", "b:", "d"]⟩ := rfl
  obtain ⟨hback, -, -, hslashes⟩ := printed_back hparse
  exact ⟨hparse, hback (by decide), hslashes rfl⟩

end Path

end VolumeFS
