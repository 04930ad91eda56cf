import VolumeFS.Proofs.Path.Printed

/-!
# Joined paths

To put parts below segments that were put together from other parts is to put
them below the parts themselves: two dots take away the name before them, and
where there is none they go on to what these parts are put below. So joining is
associative, and the path `.` changes nothing on either side. A working
directory is a path that others are joined to. To move it and then resolve a
path is therefore to resolve the two joined.
-/

set_option autoImplicit false

namespace VolumeFS

namespace Path

section Push

variable {segments : List String} (h : Leads false segments) (absolute : Bool) (x : List String)

include h

/-- One more part may be put below the segments before these are put below others. -/
theorem pushPart_pushParts (part : String) :
    pushPart absolute (pushParts absolute x segments) part =
      pushParts absolute x (pushPart false segments part) := by
  by_cases hskip : part = "" ∨ part = "."
  · rw [pushPart, if_pos hskip, pushPart, if_pos hskip]
  by_cases hout : part = ".."
  · obtain ⟨out, down, rfl, hdown, -⟩ := h
    rcases List.eq_nil_or_concat down with rfl | ⟨front, last, rfl⟩
    · have hmore : pushPart false (List.replicate out "..") ".." = List.replicate out ".." ++ [".."] :=
        (pushPart_out false out).trans List.replicate_succ'
      rw [hout, List.append_nil, hmore, pushParts_append]
      rfl
    · have hlast : IsName last := hdown last (by simp)
      rw [hout, List.concat_eq_append, ← List.append_assoc, pushPart_back false _ hlast.2.2.1,
        pushParts_append, pushParts_name absolute _ hlast, pushPart_back absolute _ hlast.2.2.1]
  · have hname : pushPart false segments part = segments ++ [part] := by
      rw [pushPart, if_neg hskip, if_neg hout]
    rw [hname, pushParts_append]
    rfl

theorem pushParts_pushParts {parts : List String} (hparts : ∀ part ∈ parts, '/' ∉ part.toList) :
    pushParts absolute (pushParts absolute x segments) parts =
      pushParts absolute x (pushParts false segments parts) := by
  induction parts generalizing segments with
  | nil => rfl
  | cons part parts ih =>
    obtain ⟨hpart, hparts⟩ := List.forall_mem_cons.1 hparts
    change pushParts absolute (pushPart absolute (pushParts absolute x segments) part) parts = _
    rw [pushPart_pushParts h, ih (leads_push h hpart) hparts]
    rfl

end Push

section Join

variable {p q r : Path}

theorem join_absolute (h : q.absolute = true) : p.join q = q := if_pos h

theorem join_relative (h : q.absolute = false) :
    p.join q = { p with segments := pushParts p.absolute p.segments q.segments } :=
  if_neg (by rw [h]; exact Bool.false_ne_true)

/-- Joined to a relative path, a path stays absolute or relative. -/
theorem absolute_join (h : q.absolute = false) : (p.join q).absolute = p.absolute := by
  rw [join_relative h]

theorem join_assoc (hq : q.Normal) (hr : r.Normal) : (p.join q).join r = p.join (q.join r) := by
  cases hrabs : r.absolute with
  | true => rw [join_absolute hrabs, join_absolute hrabs, join_absolute hrabs]
  | false =>
    cases hqabs : q.absolute with
    | true =>
      have habs : (q.join r).absolute = true := (absolute_join hrabs).trans hqabs
      rw [join_absolute hqabs, join_absolute habs]
    | false =>
      have hlead : Leads false q.segments := hqabs ▸ hq
      have habs : (q.join r).absolute = false := (absolute_join hrabs).trans hqabs
      rw [join_relative habs, join_relative hrabs, join_relative hqabs, join_relative hrabs, hqabs,
        pushParts_pushParts hlead _ _ (leads_slashfree hr)]

theorem join_here (p : Path) : p.join here = p := rfl

theorem Canonical.unscoped (hp : p.Canonical) (h : p.absolute = false) :
    p.scheme = none ∧ p.authority = none := by
  have hscheme : p.scheme = none := by
    cases hscheme : p.scheme with
    | none => rfl
    | some scheme =>
      have habs := (hp.scheme scheme hscheme).2.2
      rw [h] at habs
      cases habs
  exact ⟨hscheme, hp.unqualified hscheme⟩

theorem here_join (hp : p.Canonical) : here.join p = p := by
  cases habs : p.absolute with
  | true => exact join_absolute habs
  | false =>
    obtain ⟨hscheme, hauthority⟩ := hp.unscoped habs
    have hsegments : pushParts false [] p.segments = p.segments := pushParts_leads (habs ▸ hp.normal)
    rw [join_relative habs]
    cases p
    subst hscheme hauthority habs
    exact congrArg (Path.mk none none false) hsegments

/-- Paths in canonical form are joined to such a path. -/
theorem Canonical.join (hp : p.Canonical) (hq : q.Canonical) : (p.join q).Canonical := by
  cases habs : q.absolute with
  | true => rwa [join_absolute habs]
  | false =>
    rw [join_relative habs]
    exact ⟨leads_parts hp.normal _ (leads_slashfree hq.normal), hp.unqualified, hp.scheme,
      hp.authority⟩

end Join

end Path

namespace Resolver

variable {r s : Resolver}

theorem accepts_unqualified {p : Path} (h : p.scheme = none) : r.accepts p = true := by
  rw [accepts, h]
  rfl

theorem accepts_join {p q : Path} (h : q.absolute = false) :
    r.accepts (p.join q) = r.accepts p := by
  rw [Path.join_relative h]
  rfl

theorem resolve_segments (hr : r.Sound) {p q : Path} (h : r.resolve p = .ok q) :
    q = .ofNames q.segments := by
  obtain ⟨names, hdirectory, -⟩ := hr
  unfold resolve at h
  split_ifs at h with haccept habs
  · cases h
    rw [Path.unqualified, habs]
    rfl
  · cases h
    rw [Path.join_relative (Bool.eq_false_iff.2 habs), hdirectory]
    rfl

/-- What was resolved stands for itself. -/
theorem resolve_again (hr : r.Sound) (p : Path) : (r.resolve p).bind r.resolve = r.resolve p := by
  cases hresolve : r.resolve p with
  | error fault => rfl
  | ok q =>
    change r.resolve q = .ok q
    rw [resolve_segments hr hresolve]
    exact resolve_absolute rfl (accepts_unqualified rfl)

theorem resolve_relative {q : Path} (habs : q.absolute = false) (hscheme : q.scheme = none) :
    r.resolve q = .ok (r.workingDirectory.join q) := by
  rw [resolve, if_pos (accepts_unqualified hscheme), if_neg (by rw [habs]; exact Bool.false_ne_true)]

/-- To resolve a path after a move is to resolve it joined to the path moved to. -/
theorem resolve_joined {p q : Path} (hp : p.Canonical) (hq : q.Canonical)
    (h : r.setWorkingDirectory p = .ok s) : s.resolve q = r.resolve (p.join q) := by
  obtain ⟨directory, hresolve, rfl⟩ := setWorkingDirectory_eq_ok.1 h
  cases hqabs : q.absolute with
  | true =>
    rw [Path.join_absolute hqabs]
    unfold resolve
    rw [if_pos hqabs, if_pos hqabs]
    rfl
  | false =>
    rw [resolve_relative hqabs (hq.unscoped hqabs).1]
    unfold resolve at hresolve ⊢
    rw [accepts_join hqabs, Path.absolute_join hqabs]
    split_ifs at hresolve ⊢
    · cases hresolve
      rw [Path.join_relative hqabs, Path.join_relative hqabs]
      rfl
    · cases hresolve
      rw [Path.join_assoc hp.normal hq.normal]

def moved (r : Resolver) (p : Path) : Resolver :=
  match r.setWorkingDirectory p with
  | .ok s => s
  | .error _ => r

def tour (r : Resolver) (ps : List Path) : Resolver := ps.foldl moved r

theorem Reached.moved (hr : r.Reached) {p : Path} (hp : p.Normal) : (r.moved p).Reached := by
  unfold Resolver.moved
  split
  · next s hmove => exact .move hr hp hmove
  · exact hr

theorem Reached.tour (hr : r.Reached) {ps : List Path} (hps : ∀ p ∈ ps, p.Normal) :
    (r.tour ps).Reached := by
  induction ps generalizing r with
  | nil => exact hr
  | cons p ps ih =>
    obtain ⟨hp, hps⟩ := List.forall_mem_cons.1 hps
    exact ih (hr.moved hp) hps

structure Coherent (r : Resolver) : Prop where
  rooted : r.workingDirectory.absolute = true ∧ r.workingDirectory.scheme = none ∧
    r.workingDirectory.authority = none ∧ ".." ∉ r.workingDirectory.segments
  again : ∀ p, (r.resolve p).bind r.resolve = r.resolve p
  joined : ∀ p q : Path, p.Parsed → q.Parsed → ∀ s, r.setWorkingDirectory p = .ok s →
    r.moved p = s ∧ s.resolve q = r.resolve (p.join q)
  refused : ∀ p fault, r.setWorkingDirectory p = .error fault →
    r.resolve p = .error fault ∧ r.moved p = r

theorem Reached.coherent (hr : r.Reached) : r.Coherent := by
  have hsound := hr.sound
  refine ⟨?_, resolve_again hsound, fun p q hp hq s hmove => ?_, fun p fault hmove => ?_⟩
  · obtain ⟨names, hdirectory, hnames⟩ := hsound
    rw [hdirectory]
    exact ⟨rfl, rfl, rfl, fun hmem => (hnames _ hmem).2.2.1 rfl⟩
  · refine ⟨by rw [Resolver.moved, hmove], ?_⟩
    exact resolve_joined (Path.parsed_iff.1 hp) (Path.parsed_iff.1 hq) hmove
  · refine ⟨?_, by rw [Resolver.moved, hmove]⟩
    unfold setWorkingDirectory at hmove
    cases hresolve : r.resolve p with
    | error fault' =>
      rw [hresolve] at hmove
      cases hmove
      rfl
    | ok directory =>
      rw [hresolve] at hmove
      cases hmove

end Resolver

/-- Parsed paths with `.` are a monoid under joining, in which absolute paths absorb what they are
joined to; and a resolver is moved by this monoid. -/
theorem join_resolution :
    (∀ p q : Path, p.Parsed → q.Parsed → (p.join q).Parsed) ∧
    (∀ p q r : Path, p.Parsed → q.Parsed → r.Parsed →
      (p.join q).join r = p.join (q.join r)) ∧
    (∀ p : Path, p.Parsed → p.join .here = p ∧ Path.here.join p = p) ∧
    (∀ p q : Path, q.absolute = true → p.join q = q) ∧
    ∀ scheme directory (start : Resolver) moves, directory.Normal →
      Resolver.start scheme directory = .ok start → (∀ p ∈ moves, p.Parsed) →
      (start.tour moves).Coherent := by
  refine ⟨fun p q hp hq => ?_, fun p q r _ hq hr => ?_, fun p hp => ?_, fun p q => ?_,
    fun scheme directory start moves hdirectory hstart hmoves => ?_⟩
  · exact Path.parsed_iff.2 ((Path.parsed_iff.1 hp).join (Path.parsed_iff.1 hq))
  · exact Path.join_assoc (Path.parsed_iff.1 hq).normal (Path.parsed_iff.1 hr).normal
  · exact ⟨Path.join_here p, Path.here_join (Path.parsed_iff.1 hp)⟩
  · exact Path.join_absolute
  · have hreached : start.Reached := .start hdirectory hstart
    exact (hreached.tour fun p hp => (Path.parsed_iff.1 (hmoves p hp)).normal).coherent

def sideways : Path := ⟨none, none, false, ["..", "bob"]⟩

def upwards : Path := ⟨none, none, false, ["..", "..", "log"]⟩

/-- A resolver that was moved, refused a path of another scheme and was moved again. -/
def lodger : Resolver :=
  Resolver.tour ⟨"glusterfs", .ofNames ["user", "amy"]⟩
    [sideways, ⟨some "hdfs", some "nn", true, ["x"]⟩, sideways]

/-- From `/user/bob` the way to `../bob` and then `../../log` leads out once. -/
theorem lodger_coherent :
    (sideways.join upwards).join sideways = sideways.join (upwards.join sideways) ∧
    Path.here.join sideways = sideways ∧
    lodger = ⟨"glusterfs", .ofNames ["user", "bob"]⟩ ∧ lodger.Coherent ∧
    (lodger.moved sideways).resolve upwards = lodger.resolve (sideways.join upwards) ∧
    lodger.resolve (sideways.join upwards) = .ok (.ofNames ["log"]) := by
  have hsideways : sideways.Parsed := ⟨"../bob", rfl⟩
  have hupwards : upwards.Parsed := ⟨"../../log", rfl⟩
  have hforeign : Path.Parsed ⟨some "hdfs", some "nn", true, ["x"]⟩ := ⟨"hdfs://nn/x", rfl⟩
  have hdirectory : (Path.ofNames ["user", "amy"]).Normal := Path.leads_names.2 (by decide)
  have hstart : Resolver.start "glusterfs" (.ofNames ["user", "amy"]) =
      .ok ⟨"glusterfs", .ofNames ["user", "amy"]⟩ := rfl
  obtain ⟨-, hassoc, hhere, -, hresolver⟩ := join_resolution
  have hcoherent : lodger.Coherent := hresolver _ _ _ _ hdirectory hstart (by simp [*])
  obtain ⟨hmoved, hjoined⟩ := hcoherent.joined sideways upwards hsideways hupwards _ rfl
  exact ⟨hassoc _ _ _ hsideways hupwards hsideways, (hhere _ hsideways).2, rfl, hcoherent,
    hmoved ▸ hjoined, rfl⟩

end VolumeFS
