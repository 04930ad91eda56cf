import VolumeFS.Proofs.Names

/-!
# Normal form of paths

A path in normal form first leads out by `..`, which an absolute path never
does, and then down by names. Parsing yields nothing else, and a resolver that
started in a parsed directory turns every such path into one that leads down
from the root.
-/

set_option autoImplicit false

namespace VolumeFS

namespace Path

def Leads (absolute : Bool) (segments : List String) : Prop :=
  ∃ out down, segments = List.replicate out ".." ++ down ∧ (∀ n ∈ down, IsName n) ∧
    (absolute = true → out = 0)

def Normal (p : Path) : Prop := Leads p.absolute p.segments

def here : Path := ⟨none, none, false, []⟩

theorem leads_names {segments : List String} :
    Leads true segments ↔ ∀ n ∈ segments, IsName n := by
  constructor
  · rintro ⟨out, down, rfl, hd, ho⟩
    simpa [ho rfl] using hd
  · intro h
    exact ⟨0, segments, rfl, h, fun _ => rfl⟩

theorem leads_nil (absolute : Bool) : Leads absolute [] := ⟨0, [], rfl, by simp, fun _ => rfl⟩

theorem pushPart_out (absolute : Bool) (out : Nat) :
    pushPart absolute (List.replicate out "..") ".." =
      List.replicate (if absolute then out else out + 1) ".." := by
  have hlast : (List.replicate out "..").getLast?.any (· ≠ "..") = false := by
    cases out <;> simp [List.getLast?_replicate]
  rw [pushPart, if_neg (by decide), if_pos rfl, hlast]
  cases absolute with
  | true => rfl
  | false => simp [List.replicate_succ']

theorem pushPart_back (absolute : Bool) (x : List String) {n : String} (hn : n ≠ "..") :
    pushPart absolute (x ++ [n]) ".." = x := by
  rw [pushPart, if_neg (by decide), if_pos rfl, List.getLast?_concat, Option.any_some,
    if_pos (decide_eq_true hn), List.dropLast_concat]

theorem leads_out {absolute : Bool} {segments : List String} (h : Leads absolute segments) :
    Leads absolute (pushPart absolute segments "..") := by
  obtain ⟨out, down, rfl, hd, ho⟩ := h
  rcases List.eq_nil_or_concat down with rfl | ⟨front, last, rfl⟩
  · rw [List.append_nil, pushPart_out]
    exact ⟨_, [], (List.append_nil _).symm, by simp, fun ha => by rw [if_pos ha, ho ha]⟩
  · have hname : IsName last := hd last (by simp)
    rw [List.concat_eq_append, ← List.append_assoc, pushPart_back absolute _ hname.2.2.1]
    exact ⟨out, front, rfl, fun n hn => hd n (by simp [hn]), ho⟩

theorem leads_push {absolute : Bool} {segments : List String} (h : Leads absolute segments)
    {part : String} (hp : '/' ∉ part.toList) :
    Leads absolute (pushPart absolute segments part) := by
  by_cases h0 : part = "" ∨ part = "."
  · rwa [pushPart, if_pos h0]
  by_cases h1 : part = ".."
  · subst h1
    exact leads_out h
  · have hname : IsName part := ⟨fun e => h0 (.inl e), fun e => h0 (.inr e), h1, hp⟩
    obtain ⟨out, down, rfl, hd, ho⟩ := h
    rw [pushPart_name absolute _ hname]
    refine ⟨out, down ++ [part], by simp, ?_, ho⟩
    intro n hn
    rcases List.mem_append.1 hn with hn | hn
    · exact hd n hn
    · obtain rfl := List.mem_singleton.1 hn
      exact hname

theorem leads_parts {absolute : Bool} {segments : List String} (h : Leads absolute segments)
    (parts : List String) (hp : ∀ part ∈ parts, '/' ∉ part.toList) :
    Leads absolute (pushParts absolute segments parts) := by
  induction parts generalizing segments with
  | nil => exact h
  | cons part parts ih =>
    exact ih (leads_push h (hp part (by simp))) (fun q hq => hp q (by simp [hq]))

theorem parse_normal {text : String} {p : Path} (h : parse text = .ok p) : p.Normal := by
  unfold parse at h
  split_ifs at h
  split at h <;> cases h <;>
    exact leads_parts (leads_nil _) _ (fun part => fields_name_slashfree '/' _ part)

theorem leads_slashfree {absolute : Bool} {segments : List String} (h : Leads absolute segments) :
    ∀ s ∈ segments, '/' ∉ s.toList := by
  obtain ⟨out, down, rfl, hd, -⟩ := h
  intro s hs
  rcases List.mem_append.1 hs with hs | hs
  · rw [List.eq_of_mem_replicate hs]
    decide
  · exact (hd s hs).2.2.2

/-- A scheme does not begin with a slash. -/
theorem qualifier_rooted {text : List Char} (h : text.head? = some '/') :
    qualifier? text = none := by
  obtain ⟨cs, rfl⟩ : ∃ cs, text = '/' :: cs := by
    cases text with
    | nil => cases h
    | cons c cs => exact ⟨cs, by simpa using h⟩
  unfold qualifier?
  rw [Text.cutAt?, if_neg (by simp)]
  rcases Text.cutAt? [':', '/', '/'] cs with _ | ⟨before, after⟩
  · rfl
  · have hscheme : isScheme ('/' :: before) = false := rfl
    simp [hscheme]

theorem parse_rooted {text : String} (h : text.toList.head? = some '/') :
    parse text = .ok (ofNames (pushParts true [] (parts text.toList))) := by
  have hne : text ≠ "" := by
    rintro rfl
    cases h
  unfold parse
  rw [if_neg hne, qualifier_rooted h]
  simp [h, ofNames]

theorem pushParts_append (absolute : Bool) (x parts parts' : List String) :
    pushParts absolute x (parts ++ parts') =
      pushParts absolute (pushParts absolute x parts) parts' :=
  List.foldl_append

theorem pushParts_name (absolute : Bool) (x : List String) {n : String} (hn : IsName n) :
    pushParts absolute x [n] = x ++ [n] :=
  pushPart_name absolute x hn

theorem pushParts_names (absolute : Bool) (x : List String) {names : List String}
    (hn : ∀ n ∈ names, IsName n) : pushParts absolute x names = x ++ names := by
  induction names generalizing x with
  | nil => exact (List.append_nil x).symm
  | cons n names ih =>
    obtain ⟨hn, hnames⟩ := List.forall_mem_cons.1 hn
    change pushParts absolute (pushPart absolute x n) names = _
    rw [pushPart_name absolute x hn, ih _ hnames, List.append_assoc, List.singleton_append]

theorem pushParts_outs (out : Nat) :
    pushParts false [] (List.replicate out "..") = List.replicate out ".." := by
  induction out with
  | zero => rfl
  | succ out ih =>
    have hconcat : List.replicate (out + 1) ".." = List.replicate out ".." ++ [".."] :=
      List.replicate_succ'
    rw [hconcat, pushParts_append, ih]
    exact (pushPart_out false out).trans hconcat

/-- Segments that lead out and then down are put together again from their parts. -/
theorem pushParts_leads {absolute : Bool} {segments : List String} (h : Leads absolute segments) :
    pushParts absolute [] segments = segments := by
  obtain ⟨out, down, rfl, hdown, hout⟩ := h
  cases absolute with
  | true =>
    rw [hout rfl]
    exact pushParts_names true [] hdown
  | false => rw [pushParts_append, pushParts_outs, pushParts_names false _ hdown]

theorem parts_append (before after : List Char) :
    parts (before ++ '/' :: after) = parts before ++ parts after := by
  unfold parts
  rw [fields_append, List.map_append]

end Path

namespace Resolver

def Sound (r : Resolver) : Prop :=
  ∃ names, r.workingDirectory = Path.ofNames names ∧ ∀ n ∈ names, IsName n

/-- Resolving a path in normal form leads down from the root by names. -/
theorem resolve_names {r : Resolver} (hr : r.Sound) {p q : Path} (hp : p.Normal)
    (h : r.resolve p = .ok q) : ∃ x, q = Path.ofNames x ∧ ∀ n ∈ x, IsName n := by
  obtain ⟨names, hd, hn⟩ := hr
  unfold resolve at h
  split_ifs at h with ha habs
  · cases h
    exact ⟨p.segments, by simp [Path.unqualified, Path.ofNames, habs],
      Path.leads_names.1 (by simpa [Path.Normal, habs] using hp)⟩
  · cases h
    have hl := Path.leads_parts (Path.leads_names.2 hn) p.segments (Path.leads_slashfree hp)
    exact ⟨_, by simp [Path.join, habs, hd, Path.ofNames], Path.leads_names.1 hl⟩

theorem resolve_accepted {r : Resolver} (hr : r.Sound) {p : Path} (hp : p.Normal)
    (h : r.accepts p = true) :
    ∃ x, r.resolve p = .ok (.ofNames x) ∧ ∀ n ∈ x, IsName n := by
  have hq : ∃ q, r.resolve p = .ok q := ⟨_, if_pos h⟩
  obtain ⟨q, hq⟩ := hq
  obtain ⟨x, rfl, hx⟩ := resolve_names hr hp hq
  exact ⟨x, hq, hx⟩

theorem resolve_here (r : Resolver) : r.resolve .here = .ok r.workingDirectory := rfl

/-- An absolute path of the resolver's scheme stands for its names. -/
theorem resolve_absolute {r : Resolver} {p : Path} (hp : p.absolute = true)
    (h : r.accepts p = true) : r.resolve p = .ok (.ofNames p.segments) := by
  unfold resolve
  rw [if_pos h, if_pos hp]
  simp [Path.unqualified, Path.ofNames, hp]

theorem resolve_foreign {r : Resolver} {p : Path} (h : ¬ r.accepts p = true) :
    ∃ reason, r.resolve p = .error (.invalidPath reason) :=
  ⟨_, if_neg h⟩

theorem start_sound {scheme : String} {directory : Path} {r : Resolver}
    (hd : directory.Normal) (h : start scheme directory = .ok r) : r.Sound := by
  unfold start at h
  split_ifs at h with ha
  cases h
  refine ⟨directory.segments, by simp [Path.unqualified, Path.ofNames, ha], ?_⟩
  exact Path.leads_names.1 (by simpa [Path.Normal, ha] using hd)

theorem setWorkingDirectory_eq_ok {r s : Resolver} {p : Path} :
    r.setWorkingDirectory p = .ok s ↔
      ∃ directory, r.resolve p = .ok directory ∧ s = { r with workingDirectory := directory } := by
  unfold setWorkingDirectory
  cases hres : r.resolve p with
  | error fault => simp [Except.map]
  | ok directory => simp [Except.map, eq_comm]

theorem setWorkingDirectory_scheme {r s : Resolver} {p : Path}
    (h : r.setWorkingDirectory p = .ok s) : s.scheme = r.scheme := by
  obtain ⟨directory, -, rfl⟩ := setWorkingDirectory_eq_ok.1 h
  rfl

theorem setWorkingDirectory_sound {r s : Resolver} (hr : r.Sound) {p : Path} (hp : p.Normal)
    (h : r.setWorkingDirectory p = .ok s) : s.Sound := by
  obtain ⟨directory, hres, rfl⟩ := setWorkingDirectory_eq_ok.1 h
  exact resolve_names hr hp hres

inductive Reached : Resolver → Prop
  | start {scheme : String} {directory : Path} {r : Resolver} :
      directory.Normal → Resolver.start scheme directory = .ok r → Reached r
  | move {r s : Resolver} {p : Path} :
      Reached r → p.Normal → r.setWorkingDirectory p = .ok s → Reached s

theorem Reached.sound {r : Resolver} (h : r.Reached) : r.Sound := by
  induction h with
  | start hd h => exact start_sound hd h
  | move _ hp h ih => exact setWorkingDirectory_sound ih hp h

end Resolver

end VolumeFS
