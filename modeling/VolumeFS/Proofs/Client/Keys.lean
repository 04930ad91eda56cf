import VolumeFS.Proofs.Client.Tree
import VolumeFS.Proofs.Path.Join
import VolumeFS.Proofs.Path.Obtained

/-!
# Keys of resolved paths

A text is taken apart twice, once as a path and once as a key. Above the root
both drop `..`, so a text and the path that is read from it have one key. The
key of a path is read from the path's text, and this is the place the path names
unless an absolute path leads out: what it leads out by is not in the key, so
that it shares the key of a path that it is not equal to.
-/

set_option autoImplicit false

namespace VolumeFS

open Volume

namespace Path

/-- The segments without those that lead out in front. -/
def inward (segments : List String) : List String := segments.dropWhile (· = "..")

theorem inward_outs (out : Nat) {down : List String} (hdown : ∀ n ∈ down, IsName n) :
    inward (List.replicate out ".." ++ down) = down := by
  rw [inward, List.dropWhile_append_of_pos (by simp [List.mem_replicate])]
  cases down with
  | nil => rfl
  | cons n down =>
    have hn : n ≠ ".." := (hdown n List.mem_cons_self).2.2.1
    rw [List.dropWhile_cons_of_neg (by simpa using hn)]

variable {x : List String}

theorem Shaped.outs (hx : Shaped x) :
    ∃ out, x = List.replicate out ".." ++ inward x ∧ ∀ n ∈ inward x, IsName n := by
  obtain ⟨out, down, rfl, hdown, -⟩ := hx.leads
  rw [inward_outs out hdown]
  exact ⟨out, rfl, hdown⟩

theorem inward_eq (hx : Shaped x) : inward x = x ↔ ".." ∉ x := by
  obtain ⟨out, hsplit, hnames⟩ := hx.outs
  constructor
  · intro h hmem
    rw [← h] at hmem
    exact (hnames _ hmem).2.2.1 rfl
  · intro hmem
    cases out with
    | zero => exact hsplit.symm
    | succ out => exact absurd (by rw [hsplit]; simp [List.replicate_succ]) hmem

end Path

namespace Volume.Key

/-- Below names, the parts of a path and of a key are put together alike. -/
theorem pushPart_path {names : List String} (hnames : ".." ∉ names) (part : String) :
    Path.pushPart true names part = pushPart names part := by
  unfold Path.pushPart pushPart
  by_cases hskip : part = "" ∨ part = "."
  · rw [if_pos hskip, if_pos hskip]
  by_cases hout : part = ".."
  · rw [if_neg hskip, if_pos hout, if_neg hskip, if_pos hout, if_pos rfl]
    rcases List.eq_nil_or_concat names with rfl | ⟨front, last, rfl⟩
    · rfl
    · have hlast : last ≠ ".." := by
        rintro rfl
        exact hnames (by simp)
      rw [if_pos (by simpa using hlast)]
  · rw [if_neg hskip, if_neg hout, if_neg hskip, if_neg hout]

theorem pushPart_stays {names : List String} (hnames : ".." ∉ names) (part : String) :
    ".." ∉ pushPart names part := by
  unfold pushPart
  split_ifs with hskip hout
  · exact hnames
  · exact fun hmem => hnames (List.mem_of_mem_dropLast hmem)
  · rw [List.mem_append, List.mem_singleton]
    rintro (hmem | rfl)
    · exact hnames hmem
    · exact hout rfl

theorem foldl_pushPart_path (parts : List String) {names : List String} (hnames : ".." ∉ names) :
    Path.pushParts true names parts = parts.foldl pushPart names := by
  induction parts generalizing names with
  | nil => rfl
  | cons part parts ih =>
    rw [List.foldl_cons, ← ih (pushPart_stays hnames part), ← pushPart_path hnames part]
    rfl

theorem ofText_parts (text : String) :
    ofText text = ⟨Path.pushParts true [] (Path.parts text.toList)⟩ :=
  congrArg Key.mk (foldl_pushPart_path _ List.not_mem_nil).symm

/-- Above the root `..` stays there. -/
theorem foldl_pushPart_outs (out : Nat) : (List.replicate out "..").foldl pushPart [] = [] := by
  induction out with
  | zero => rfl
  | succ out ih => exact ih

end Volume.Key

namespace Path

/-- A text that names no scheme is the key of the path read from it, seen from the root. -/
theorem ofText_parse {text : String} {p : Path} (h : parse text = .ok p)
    (hscheme : p.scheme = none) : (Key.ofText text).text = (Path.root.join p).text := by
  unfold parse at h
  split_ifs at h with hempty
  split at h
  · cases h
    cases hscheme
  · cases h
    rw [Key.ofText_parts]
    by_cases habs : text.toList.head? = some '/'
    · rw [join_absolute (decide_eq_true habs), decide_eq_true habs]
      rfl
    · have hparts := pushParts_pushParts (leads_nil false) true [] (parts_slashfree text.toList)
      rw [join_relative (decide_eq_false habs), decide_eq_false habs]
      change _ = (ofNames (pushParts true [] (pushParts false [] _))).text
      rw [← hparts]
      rfl

theorem parse_total {text : String} (h : text ≠ "") : ∃ p, parse text = .ok p := by
  unfold parse
  rw [if_neg h]
  split
  · exact ⟨_, rfl⟩
  · exact ⟨_, rfl⟩

theorem ofText_parse_rooted {text : String} (h : text.toList.head? = some '/') :
    ∃ p, parse text = .ok p ∧ (Key.ofText text).text = p.text := by
  refine ⟨_, parse_rooted h, ?_⟩
  rw [Key.ofText_parts]
  rfl

section Shaped

variable {x : List String}

/-- What an absolute path leads out by is not in its key. -/
theorem shaped_key (hx : Shaped x) : Client.key (ofNames x) = ⟨inward x⟩ := by
  by_cases hempty : x = []
  · rw [hempty]
    rfl
  · obtain ⟨out, hsplit, hnames⟩ := hx.outs
    have hfields := fields_rooted x (fun n hn => (hx.segment n hn).2.2) hempty
    have hid : String.ofList ∘ String.toList = id := by
      funext s
      simp
    have hskip : Key.pushPart [] (String.ofList []) = [] := rfl
    have hread : Client.key (ofNames x) = ⟨x.foldl Key.pushPart []⟩ := by
      change Key.ofText ("/" ++ "/".intercalate x) = _
      rw [Key.ofText, hfields, List.map_cons, List.map_map, List.foldl_cons, hid, List.map_id,
        hskip]
    rw [hread]
    nth_rewrite 1 [hsplit]
    rw [List.foldl_append, Key.foldl_pushPart_outs, Key.foldl_pushPart_names _ [] hnames,
      List.nil_append]

theorem shaped_text (hx : Shaped x) :
    (Client.key (ofNames x)).text = (ofNames x).text ↔ ".." ∉ x := by
  rw [shaped_key hx, ← inward_eq hx]
  refine ⟨fun htext => ?_, fun h => congrArg (fun y => (ofNames y).text) h⟩
  have hinward : Shaped (inward x) := hx.rest (List.dropWhile_suffix _)
  have hjoined : "/".intercalate (inward x) = "/".intercalate x := by
    change (ofNames (inward x)).text = (ofNames x).text at htext
    have htoList := congrArg String.toList htext
    rw [text_absolute rfl, text_absolute rfl] at htoList
    exact String.toList_inj.1 (List.cons.inj htoList).2
  calc inward x = pushParts false [] (parts ("/".intercalate (inward x)).toList) :=
        (pushParts_joined hinward.leads).symm
    _ = pushParts false [] (parts ("/".intercalate x).toList) := by rw [hjoined]
    _ = x := pushParts_joined hx.leads

theorem inward_child (hx : Shaped x) {n : String} (hn : IsName n) :
    Shaped (x ++ [n]) ∧ inward (x ++ [n]) = inward x ++ [n] := by
  obtain ⟨out, hsplit, hnames⟩ := hx.outs
  have hmore : ∀ m ∈ inward x ++ [n], IsName m := by
    simpa [or_imp, forall_and] using ⟨hnames, hn⟩
  refine ⟨?_, ?_⟩
  · rw [← pushPart_name false _ hn]
    exact leads_shaped (leads_push hx.leads hn.2.2.2)
  · nth_rewrite 1 [hsplit]
    rw [List.append_assoc, inward_outs out hmore]

end Shaped

end Path

namespace Path

structure Placed (fit : List String → Prop) (q : Path) : Prop where
  names : q = ofNames q.segments
  shaped : Shaped q.segments
  stays : (∀ x, fit x → ".." ∉ x) → ".." ∉ q.segments

variable {fit : List String → Prop} {p q : Path}

theorem Obtained.placed (h : p.Obtained fit) (habs : p.absolute = true) :
    Placed fit p.unqualified where
  names := by
    rw [Path.unqualified, habs]
    rfl
  shaped := h.shaped
  stays := fun hfit => (leads_iff.1 (h.normal hfit)).2 habs

theorem Placed.join (hq : Placed fit q) (hp : p.Obtained fit) (habs : p.absolute = false) :
    Placed fit (q.join p) := by
  have hslash : ∀ s ∈ p.segments, '/' ∉ s.toList := fun s hs => (hp.shaped.segment s hs).2.2
  have hrooted : q.absolute = true := by
    rw [hq.names]
    rfl
  rw [join_relative habs, hrooted]
  refine ⟨?_, hq.shaped.pushParts _ hslash, fun hfit => ?_⟩
  · rw [hq.names]
    rfl
  · have hleads : Leads true q.segments := leads_iff.2 ⟨hq.shaped, fun _ => hq.stays hfit⟩
    exact (leads_iff.1 (leads_parts hleads _ hslash)).2 rfl

end Path

namespace Resolver

/-- The resolvers that a file system can come to have by paths made from paths. -/
inductive Obtained (fit : List String → Prop) : Resolver → Prop
  | start {scheme : String} {directory : Path} {r : Resolver} :
      directory.Obtained fit → Resolver.start scheme directory = .ok r → Obtained fit r
  | move {r s : Resolver} {p : Path} :
      Obtained fit r → p.Obtained fit → r.setWorkingDirectory p = .ok s → Obtained fit s

variable {fit : List String → Prop} {r : Resolver} {p q : Path}

theorem resolve_placed (hr : r.workingDirectory.Placed fit) (hp : p.Obtained fit)
    (h : r.resolve p = .ok q) : q.Placed fit := by
  unfold resolve at h
  split_ifs at h with haccept habs
  · cases h
    exact hp.placed habs
  · cases h
    exact hr.join hp (Bool.eq_false_iff.2 habs)

theorem Obtained.placed (h : r.Obtained fit) : r.workingDirectory.Placed fit := by
  induction h with
  | start hdirectory hstart =>
    unfold Resolver.start at hstart
    split_ifs at hstart with habs
    cases hstart
    exact hdirectory.placed habs
  | move _ hp hmove ih =>
    obtain ⟨directory, hresolve, rfl⟩ := setWorkingDirectory_eq_ok.1 hmove
    exact resolve_placed ih hp hresolve

def Resolves (fit : List String → Prop) (q : Path) : Prop :=
  ∃ r p, Obtained fit r ∧ p.Obtained fit ∧ r.resolve p = .ok q

theorem Resolves.placed (h : Resolves fit q) : q.Placed fit := by
  obtain ⟨r, p, hr, hp, hresolve⟩ := h
  exact resolve_placed hr.placed hp hresolve

end Resolver

namespace Client

structure Keyed (fit : List String → Prop) (q : Path) : Prop where
  names : (key q).names = Path.inward q.segments
  text : (key q).text = q.text ↔ ".." ∉ q.segments
  stays : (∀ x, fit x → ".." ∉ x) → ".." ∉ q.segments
  shared : ∀ p, Resolver.Resolves fit p →
    (key p = key q ↔ Path.inward p.segments = Path.inward q.segments) ∧
    (".." ∉ p.segments → ".." ∉ q.segments → key p = key q → p = q)
  child : ∀ v : Volume, v.Reachable → ∀ names, v.list (key q) = .ok names → ∀ n ∈ names,
    (key (q.child n)).names = (key q).names ++ [n] ∧ (key (q.child n)).parent? = some (key q)

theorem keyed {fit : List String → Prop} {q : Path} (hq : Resolver.Resolves fit q) :
    Keyed fit q := by
  have hplaced := hq.placed
  have hkey : key q = ⟨Path.inward q.segments⟩ := by
    rw [hplaced.names]
    exact Path.shaped_key hplaced.shaped
  refine ⟨congrArg Key.names hkey, ?_, hplaced.stays, fun p hp => ?_,
    fun v hv names hlist n hn => ?_⟩
  · rw [hplaced.names]
    exact Path.shaped_text hplaced.shaped
  · have hp := hp.placed
    have hshared : key p = key q ↔ Path.inward p.segments = Path.inward q.segments := by
      rw [hkey, hp.names, Path.shaped_key hp.shaped]
      exact ⟨congrArg Key.names, congrArg Key.mk⟩
    refine ⟨hshared, fun hpin hqin hkeys => ?_⟩
    have hinward := hshared.1 hkeys
    rw [(Path.inward_eq hp.shaped).2 hpin, (Path.inward_eq hplaced.shaped).2 hqin] at hinward
    rw [hp.names, hplaced.names, hinward]
  · have hname : IsName n := hv.wellFormed.list_names hlist n hn
    obtain ⟨hshaped, hinward⟩ := Path.inward_child hplaced.shaped hname
    have hchild : key (q.child n) = ⟨Path.inward q.segments ++ [n]⟩ := by
      rw [hplaced.names, Path.ofNames_child _ hname, Path.shaped_key hshaped, hinward]
      rfl
    rw [hkey, hchild]
    exact ⟨rfl, key_parent _ n⟩

/-- The two ways to take a text apart agree, and the key of a resolved path is the place that the
path names unless it leads out. -/
theorem normalisers_agree (text : String) (fit : List String → Prop) (q : Path) :
    (text.toList.head? = some '/' →
      ∃ p, Path.parse text = .ok p ∧ (Key.ofText text).text = p.text) ∧
    (text ≠ "" → ∃ p, Path.parse text = .ok p ∧
      (p.scheme = none → (Key.ofText text).text = (Path.root.join p).text)) ∧
    Key.ofText (Key.ofText text).text = Key.ofText text ∧
    (Resolver.Resolves fit q → Keyed fit q) := by
  refine ⟨Path.ofText_parse_rooted, fun hne => ?_, Key.ofText_text (Key.ofText_normal text), keyed⟩
  obtain ⟨p, hparse⟩ := Path.parse_total hne
  exact ⟨p, hparse, Path.ofText_parse hparse⟩

def logged : Volume :=
  (calls [.makeDirectory "/user", .makeDirectory "//user/./log", .createFile "user/log/old"]
    (.start "vol" 0 0 default)).world.volume

/-- From `/user/amy` the path `../log` is the key `/user/log`, which has one child. -/
theorem logged_keyed :
    (∃ p, Path.parse "/a//./../../c/" = .ok p ∧ (Key.ofText "/a//./../../c/").text = p.text) ∧
    (∃ p, Path.parse "../x" = .ok p ∧
      (p.scheme = none → (Key.ofText "../x").text = (Path.root.join p).text)) ∧
    Resolver.Resolves (".." ∉ ·) (.ofNames ["user", "log"]) ∧
    (key (.ofNames ["user", "log"])).text = (Path.ofNames ["user", "log"]).text ∧
    logged.list (key (.ofNames ["user", "log"])) = .ok ["old"] ∧
    (key ((Path.ofNames ["user", "log"]).child "old")).parent? =
      some (key (.ofNames ["user", "log"])) := by
  obtain ⟨hrooted, -, -, -⟩ := normalisers_agree "/a//./../../c/" (".." ∉ ·) .root
  obtain ⟨-, hread, -, hkeyed⟩ :=
    normalisers_agree "../x" (".." ∉ ·) (.ofNames ["user", "log"])
  have hdirectory : Path.parse "/user/amy" = .ok (.ofNames ["user", "amy"]) := rfl
  have hpath : Path.parse "../log" = .ok ⟨none, none, false, ["..", "log"]⟩ := rfl
  have hresolves : Resolver.Resolves (".." ∉ ·) (.ofNames ["user", "log"]) :=
    ⟨⟨Path.volumeScheme, .ofNames ["user", "amy"]⟩, _, .start (.parse hdirectory) rfl,
      .parse hpath, rfl⟩
  have hkey := hkeyed hresolves
  have hlist : logged.list (key (.ofNames ["user", "log"])) = .ok ["old"] := by
    cbv
  have hreachable : logged.Reachable := ⟨_, _, _, _, _, rfl⟩
  exact ⟨hrooted rfl, hread (by decide), hresolves, hkey.text.2 (hkey.stays fun _ => id), hlist,
    (hkey.child _ hreachable _ hlist "old" List.mem_cons_self).2⟩

/-- The path that `../x` becomes when it is qualified is resolved as it stands. It shares its key
with another path, and the key is bound to the text of that one. -/
theorem climber_shares_key :
    Resolver.Resolves (fun _ => True) ⟨none, none, true, ["..", "x"]⟩ ∧
    Resolver.Resolves (fun _ => True) (.ofNames ["x"]) ∧
    key ⟨none, none, true, ["..", "x"]⟩ = key (.ofNames ["x"]) ∧
    Path.text ⟨none, none, true, ["..", "x"]⟩ = "/../x" ∧
    (key ⟨none, none, true, ["..", "x"]⟩).text = "/x" := by
  have hroot : Resolver.Obtained (fun _ => True) ⟨Path.volumeScheme, .root⟩ := .start .root rfl
  have hparse : Path.parse "/x" = .ok (.ofNames ["x"]) := rfl
  have hqualified : (Path.climber.qualified Path.volumeScheme (some "h")).Obtained fun _ => True :=
    .qualified _ _ (.parse Path.parse_climber) trivial
  exact ⟨⟨_, _, hroot, hqualified, rfl⟩, ⟨_, _, hroot, .parse hparse, rfl⟩, by decide, rfl,
    by decide⟩

end Client

end VolumeFS
