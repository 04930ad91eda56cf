import VolumeFS.Proofs.Path.Printed

/-!
# Paths made from paths

Whatever is made from `/` and from texts by the operations on paths, its
segments lead out and then down. That an absolute path does not lead out is
kept by all operations but two: to qualify a path and to take the place below
another one make an absolute path of the segments as they stand. They keep it
where these do not lead out; of a relative path that does, both make an absolute
path that no text is read as.
-/

set_option autoImplicit false

namespace VolumeFS

namespace Path

section Shaped

/-- No segment is empty, a dot or holds a slash, and before two dots there are only two dots. -/
structure Shaped (segments : List String) : Prop where
  segment : ∀ s ∈ segments, s ≠ "" ∧ s ≠ "." ∧ '/' ∉ s.toList
  front : ∀ before after, segments = before ++ ".." :: after → ∀ s ∈ before, s = ".."

variable {segments : List String}

theorem leads_shaped {absolute : Bool} (h : Leads absolute segments) : Shaped segments := by
  obtain ⟨out, down, rfl, hdown, -⟩ := h
  have hnames : ".." ∉ down := fun hmem => (hdown _ hmem).2.2.1 rfl
  constructor
  · intro s hs
    rcases List.mem_append.1 hs with hs | hs
    · rw [List.eq_of_mem_replicate hs]
      decide
    · exact ⟨(hdown s hs).1, (hdown s hs).2.1, (hdown s hs).2.2.2⟩
  · intro before after hsplit s hs
    rcases List.append_eq_append_iff.1 hsplit with ⟨more, -, hmore⟩ | ⟨more, hmore, -⟩
    · exact absurd (hmore ▸ List.mem_append_right _ List.mem_cons_self) hnames
    · exact List.eq_of_mem_replicate (hmore ▸ List.mem_append_left _ hs)

theorem Shaped.leads (h : Shaped segments) : Leads false segments := by
  induction segments with
  | nil => exact leads_nil false
  | cons first rest ih =>
    have hrest : Shaped rest := by
      refine ⟨fun s hs => h.segment s (List.mem_cons_of_mem _ hs), fun before after hsplit s hs => ?_⟩
      have hsplit' : first :: rest = (first :: before) ++ ".." :: after := by
        rw [hsplit]
        rfl
      exact h.front _ _ hsplit' s (List.mem_cons_of_mem _ hs)
    obtain ⟨out, down, rfl, hdown, -⟩ := ih hrest
    by_cases hout : first = ".."
    · refine ⟨out + 1, down, ?_, hdown, nofun⟩
      rw [hout, List.replicate_succ, List.cons_append]
    · -- After a name there are no two dots.
      have hnone : out = 0 := by
        by_contra hpos
        obtain ⟨n, rfl⟩ := Nat.exists_eq_succ_of_ne_zero hpos
        have hsplit : first :: (List.replicate (n + 1) ".." ++ down) =
            [first] ++ ".." :: (List.replicate n ".." ++ down) := rfl
        exact hout (h.front _ _ hsplit first List.mem_cons_self)
      obtain ⟨hempty, hdot, hslash⟩ := h.segment first List.mem_cons_self
      refine ⟨0, first :: down, by rw [hnone]; rfl, ?_, nofun⟩
      exact List.forall_mem_cons.2 ⟨⟨hempty, hdot, hout, hslash⟩, hdown⟩

/-- What the normal form asks of the segments of absolute and of relative paths. -/
theorem leads_iff {absolute : Bool} :
    Leads absolute segments ↔ Shaped segments ∧ (absolute = true → ".." ∉ segments) := by
  constructor
  · intro h
    refine ⟨leads_shaped h, fun habs hmem => ?_⟩
    rw [habs] at h
    exact (leads_names.1 h _ hmem).2.2.1 rfl
  · rintro ⟨h, hrooted⟩
    obtain ⟨out, down, rfl, hdown, -⟩ := h.leads
    refine ⟨out, down, rfl, hdown, fun habs => ?_⟩
    cases out with
    | zero => rfl
    | succ out => exact absurd (by simp [List.replicate_succ]) (hrooted habs)

theorem Shaped.start (h : Shaped segments) {x : List String} (hx : x <+: segments) : Shaped x := by
  obtain ⟨y, rfl⟩ := hx
  refine ⟨fun s hs => h.segment s (List.mem_append_left _ hs), fun before after hsplit => ?_⟩
  exact h.front before (after ++ y) (by rw [hsplit, List.append_assoc, List.cons_append])

theorem Shaped.rest (h : Shaped segments) {x : List String} (hx : x <:+ segments) : Shaped x := by
  obtain ⟨y, rfl⟩ := hx
  refine ⟨fun s hs => h.segment s (List.mem_append_right _ hs), fun before after hsplit s hs => ?_⟩
  exact h.front (y ++ before) after (by rw [hsplit, List.append_assoc]) s
    (List.mem_append_right _ hs)

theorem leads_start {absolute : Bool} (h : Leads absolute segments) {x : List String}
    (hx : x <+: segments) : Leads absolute x := by
  obtain ⟨hshape, hrooted⟩ := leads_iff.1 h
  exact leads_iff.2 ⟨hshape.start hx, fun habs hmem => hrooted habs (hx.subset hmem)⟩

theorem pushPart_rooted (segments : List String) (part : String) :
    pushPart true segments part = pushPart false segments part ∨
      pushPart true segments part = segments := by
  unfold pushPart
  by_cases hlast : segments.getLast?.any (· ≠ "..") = true
  · left
    rw [if_pos hlast, if_pos hlast]
  · rw [if_neg hlast, if_neg hlast, if_pos rfl, if_neg Bool.false_ne_true]
    split_ifs
    · exact .inl rfl
    · exact .inr rfl
    · exact .inl rfl

/-- Parts keep the shape also below segments that lead out. -/
theorem Shaped.pushParts (absolute : Bool) (h : Shaped segments) {parts : List String}
    (hparts : ∀ part ∈ parts, '/' ∉ part.toList) :
    Shaped (Path.pushParts absolute segments parts) := by
  induction parts generalizing segments with
  | nil => exact h
  | cons part parts ih =>
    obtain ⟨hpart, hparts⟩ := List.forall_mem_cons.1 hparts
    have hstep : Shaped (pushPart false segments part) := leads_shaped (leads_push h.leads hpart)
    refine ih ?_ hparts
    cases absolute with
    | false => exact hstep
    | true =>
      rcases pushPart_rooted segments part with he | he
      · rwa [he]
      · rwa [he]

end Shaped

/-- The paths that come from `/` and from texts by the operations on paths, where the segments that
an operation makes absolute as they stand are fit for it. -/
inductive Obtained (fit : List String → Prop) : Path → Prop
  | root : Obtained fit .root
  | parse {text : String} {p : Path} : Path.parse text = .ok p → Obtained fit p
  | child {p : Path} (name : String) : Obtained fit p → Obtained fit (p.child name)
  | join {p q : Path} : Obtained fit p → Obtained fit q → Obtained fit (p.join q)
  | parent {p q : Path} : Obtained fit p → p.parent? = some q → Obtained fit q
  | unqualified {p : Path} : Obtained fit p → Obtained fit p.unqualified
  | qualified {p : Path} (scheme : String) (authority : Option String) :
      Obtained fit p → fit p.segments → Obtained fit (p.qualified scheme authority)
  | beneath {p q r : Path} :
      Obtained fit p → Obtained fit q → p.below? q = some r → fit r.segments → Obtained fit r
  | lineage {p q : Path} : Obtained fit p → q ∈ p.lineage → Obtained fit q

section Operations

variable {p q r : Path}

theorem parent?_start (h : p.parent? = some q) :
    q.absolute = p.absolute ∧ q.segments <+: p.segments := by
  unfold parent? at h
  split_ifs at h
  cases h
  exact ⟨rfl, List.dropLast_prefix _⟩

theorem below?_rest (h : p.below? q = some r) :
    r.absolute = true ∧ r.segments <:+ p.segments := by
  unfold below? at h
  split_ifs at h
  cases h
  exact ⟨rfl, List.drop_suffix _ _⟩

theorem lineage_start (h : q ∈ p.lineage) :
    q.absolute = p.absolute ∧ q.segments <+: p.segments := by
  obtain ⟨n, -, rfl⟩ := List.mem_map.1 h
  exact ⟨rfl, List.take_prefix _ _⟩

theorem parts_slashfree (text : List Char) : ∀ part ∈ parts text, '/' ∉ part.toList :=
  fun part => fields_name_slashfree '/' text part

end Operations

variable {fit : List String → Prop} {p : Path}

theorem Obtained.shaped (h : Obtained fit p) : Shaped p.segments := by
  induction h with
  | root => exact leads_shaped (leads_nil true)
  | parse hparse => exact leads_shaped (parse_normal hparse)
  | child name _ ih => exact ih.pushParts _ (parts_slashfree name.toList)
  | @join p q _ _ ihp ihq =>
    unfold Path.join
    split_ifs
    · exact ihq
    · exact ihp.pushParts _ fun s hs => (ihq.segment s hs).2.2
  | parent _ hparent ih => exact ih.start (parent?_start hparent).2
  | unqualified _ ih => exact ih
  | qualified _ _ _ _ ih => exact ih
  | beneath _ _ hbelow _ ih _ => exact ih.rest (below?_rest hbelow).2
  | lineage _ hmem ih => exact ih.start (lineage_start hmem).2

/-- Where no segments that lead out are made absolute, the normal form is kept. -/
theorem Obtained.normal (hfit : ∀ x, fit x → ".." ∉ x) (h : Obtained fit p) : p.Normal := by
  induction h with
  | root => exact leads_nil true
  | parse hparse => exact parse_normal hparse
  | child name _ ih => exact leads_parts ih _ (parts_slashfree name.toList)
  | @join p q _ _ ihp ihq =>
    unfold Path.join
    split_ifs
    · exact ihq
    · exact leads_parts ihp _ (leads_slashfree ihq)
  | parent _ hparent ih =>
    obtain ⟨habs, hsegments⟩ := parent?_start hparent
    rw [Normal, habs]
    exact leads_start ih hsegments
  | unqualified _ ih => exact ih
  | qualified _ _ hp hsegments _ => exact leads_iff.2 ⟨hp.shaped, fun _ => hfit _ hsegments⟩
  | beneath hp _ hbelow hsegments _ _ =>
    exact leads_iff.2 ⟨hp.shaped.rest (below?_rest hbelow).2, fun _ => hfit _ hsegments⟩
  | lineage _ hmem ih =>
    obtain ⟨habs, hsegments⟩ := lineage_start hmem
    rw [Normal, habs]
    exact leads_start ih hsegments

/-- Segments of the shape are read from a text, and made absolute as they stand in one step, by
either of two operations. -/
theorem Shaped.made_absolute {segments : List String} (h : Shaped segments) (scheme : String)
    (authority : Option String) :
    ∃ q : Path, q.Parsed ∧ q.absolute = false ∧
      q.qualified scheme authority = ⟨some scheme, authority.filter (· ≠ ""), true, segments⟩ ∧
      q.below? here = some ⟨none, none, true, segments⟩ := by
  refine ⟨⟨none, none, false, segments⟩, parsed_iff.2 ?_, rfl, rfl, rfl⟩
  exact ⟨h.leads, fun _ => rfl, fun _ hscheme => (nomatch hscheme), fun _ ha => (nomatch ha)⟩

/-- Of an absolute path whose segments have the shape. -/
theorem Shaped.normal_iff {p : Path} (h : Shaped p.segments) (habs : p.absolute = true) :
    p.Normal ↔ ".." ∉ p.segments := by
  rw [Normal, leads_iff, and_iff_right h]
  exact ⟨fun hrooted => hrooted habs, fun hrooted _ => hrooted⟩

theorem below?_append {p q r : Path} (h : p.below? q = some r) :
    p.segments = q.segments ++ r.segments := by
  unfold below? at h
  split_ifs at h with hstarts
  cases h
  rw [startsWith, Bool.and_eq_true] at hstarts
  exact (List.prefix_iff_eq_append.1 (List.isPrefixOf_iff_prefix.1 hstarts.2)).symm

/-- What paths made from paths look like. Their segments have the shape, and an absolute path does
not lead out if no segments that do were made absolute. A qualified path is in normal form just if
the path does not lead out, and the place below another path just if the two lead out alike; and all
segments of the shape can be made absolute in these two ways. -/
theorem obtained_form (h : Obtained fit p) :
    Shaped p.segments ∧
    ((∀ x, fit x → ".." ∉ x) → p.absolute = true → ".." ∉ p.segments) ∧
    (∀ scheme authority, (p.qualified scheme authority).Normal ↔ ".." ∉ p.segments) ∧
    (∀ q r, p.below? q = some r →
      (r.Normal ↔ p.segments.count ".." = q.segments.count "..")) ∧
    (∀ segments, Shaped segments → ∀ scheme authority, ∃ q : Path, q.Parsed ∧ q.absolute = false ∧
      q.qualified scheme authority = ⟨some scheme, authority.filter (· ≠ ""), true, segments⟩ ∧
      q.below? here = some ⟨none, none, true, segments⟩) := by
  have hshape := h.shaped
  refine ⟨hshape, fun hfit => (leads_iff.1 (h.normal hfit)).2, fun scheme authority => ?_,
    fun q r hbelow => ?_, fun segments => Shaped.made_absolute⟩
  · have hqualified : Shaped (p.qualified scheme authority).segments := hshape
    exact hqualified.normal_iff rfl
  · obtain ⟨habs, hrest⟩ := below?_rest hbelow
    rw [(hshape.rest hrest).normal_iff habs, below?_append hbelow, List.count_append,
      ← List.count_eq_zero]
    omega

def climber : Path := ⟨none, none, false, ["..", "x"]⟩

theorem parse_climber : parse "../x" = .ok climber := rfl

def climbed : Path := (Path.join (.ofNames ["a"]) climber).qualified "glusterfs" (some "h")

/-- A path that led out may be qualified once it does not. -/
theorem climbed_obtained :
    Obtained (".." ∉ ·) climbed ∧ climbed = ⟨some "glusterfs", some "h", true, ["x"]⟩ ∧
    Shaped climbed.segments ∧ ".." ∉ climbed.segments ∧
    (climbed.qualified "s" none).Normal ∧
    climbed.below? (.ofNames ["x"]) = some .root ∧ root.Normal ∧
    ∃ q : Path, q.Parsed ∧ q.absolute = false ∧
      q.qualified "s" none = ⟨some "s", none, true, ["..", "x"]⟩ ∧
      q.below? here = some ⟨none, none, true, ["..", "x"]⟩ := by
  have hparse : parse "/a" = .ok (.ofNames ["a"]) := rfl
  have hclimbed : Obtained (".." ∉ ·) climbed :=
    .qualified _ _ (.join (.parse hparse) (.parse parse_climber)) (by decide)
  have hbelow : climbed.below? (.ofNames ["x"]) = some .root := rfl
  obtain ⟨hshaped, hrooted, hqualified, hrest, hmade⟩ := obtained_form hclimbed
  have hout : ".." ∉ climbed.segments := hrooted (fun _ => id) rfl
  exact ⟨hclimbed, rfl, hshaped, hout, (hqualified _ _).2 hout, hbelow,
    (hrest _ _ hbelow).2 (by decide), hmade _ (leads_shaped (parse_normal parse_climber)) "s" none⟩

/-- Qualified, or seen from `.`, a path that leads out is an absolute path that leads out. A text
that says the same is read as another path. -/
theorem climber_stays_out :
    climber.qualified "glusterfs" (some "h") = ⟨some "glusterfs", some "h", true, ["..", "x"]⟩ ∧
    Obtained (fun _ => True) (climber.qualified "glusterfs" (some "h")) ∧
    parse "glusterfs://h/../x" = .ok ⟨some "glusterfs", some "h", true, ["x"]⟩ ∧
    climber.below? here = some ⟨none, none, true, ["..", "x"]⟩ ∧
    Obtained (fun _ => True) ⟨none, none, true, ["..", "x"]⟩ ∧
    parse "/../x" = .ok ⟨none, none, true, ["x"]⟩ := by
  have hclimber : Obtained (fun _ => True) climber := .parse parse_climber
  have hbelow : climber.below? here = some ⟨none, none, true, ["..", "x"]⟩ := rfl
  exact ⟨rfl, .qualified _ _ hclimber trivial, rfl, hbelow,
    .beneath hclimber (.parse parse_here) hbelow trivial, rfl⟩

end Path

end VolumeFS
