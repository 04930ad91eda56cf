import VolumeFS.Proofs.Names
import VolumeFS.Proofs.Table

/-!
# Walks along a disk

On a plain disk every node lies in a directory and nothing is a link. A walk
along empty parts, dots and names of directories leads where the names say;
from there a row of names leads to a node, to a free place in a directory, or
to no entry at all.
-/

set_option autoImplicit false

namespace VolumeFS.Disk

structure EntryName (n : String) : Prop where
  name : IsName n
  nul : ∀ c ∈ n.toList, c.toNat ≠ 0
  short : n.utf8ByteSize ≤ nameLimit

structure Plain (d : Disk) : Prop where
  rooted : Tree.Rooted (fun a : Node => a.isDirectory = true) EntryName d.node?
  links : ∀ x target, d.node? x ≠ some (.link target)
  numbers : ∀ x number, d.node? x = some (.file number) → number < d.bodies.length
  own : ∀ x y number, d.node? x = some (.file number) → d.node? y = some (.file number) → x = y
  unique : (Table.keys d.nodes).Nodup

theorem isDirectory_iff {a : Node} : a.isDirectory = true ↔ ∃ mode, a = .directory mode := by
  cases a <;> simp [Node.isDirectory]

def Open (d : Disk) (base x : Place) : Prop :=
  ∀ y z a, x = y ++ z → z ≠ [] → d.node? (base ++ y) = some a → a.isDirectory = true

def steps (parts : List String) : List String :=
  parts.filter fun part => part ≠ "" ∧ part ≠ "."

theorem steps_append (before after : List String) :
    steps (before ++ after) = steps before ++ steps after :=
  List.filter_append before after

section Find

variable {d : Disk} {path : String} {start place : Place} {ps : List String} {a : Node}

theorem route_ok :
    d.route path = .ok (start, ps) ↔ (∀ c ∈ path.toList, c.toNat ≠ 0) ∧ path ≠ "" ∧
      path.utf8ByteSize ≤ pathLimit ∧
      start = (if path.toList.head? = some '/' then [] else d.current) ∧ ps = parts path := by
  unfold route
  by_cases hnul : path.toList.any (·.toNat = 0) = true
  · rw [if_pos hnul]
    refine ⟨fun h => (nomatch h), fun h => ?_⟩
    obtain ⟨c, hc, hzero⟩ := List.any_eq_true.1 hnul
    exact absurd (of_decide_eq_true hzero) (h.1 c hc)
  · rw [if_neg hnul]
    have hclean : ∀ c ∈ path.toList, c.toNat ≠ 0 := by
      intro c hc hzero
      exact hnul (List.any_eq_true.2 ⟨c, hc, decide_eq_true hzero⟩)
    by_cases hempty : path = ""
    · rw [if_pos hempty]
      exact ⟨fun h => (nomatch h), fun h => absurd hempty h.2.1⟩
    · rw [if_neg hempty]
      by_cases hlong : pathLimit < path.utf8ByteSize
      · rw [if_pos hlong]
        exact ⟨fun h => (nomatch h), fun h => absurd hlong (Nat.not_lt.2 h.2.2.1)⟩
      · rw [if_neg hlong, Except.ok.injEq, Prod.mk.injEq]
        refine ⟨fun h => ⟨hclean, hempty, Nat.not_lt.1 hlong, h.1.symm, h.2.symm⟩,
          fun h => ⟨h.2.2.2.1.symm, h.2.2.2.2.symm⟩⟩

theorem find_eq_ok : d.find path = .ok (place, a) ↔ d.resolve path = .ok ⟨place, some a⟩ := by
  constructor
  · intro h
    obtain ⟨⟨y, _ | b⟩, hresolve, hfound⟩ := bind_eq_ok.1 h
    · cases hfound
    · cases hfound
      exact hresolve
  · intro h
    exact bind_eq_ok.2 ⟨_, h, rfl⟩

/-- What is found is walked to along all parts of the path. -/
theorem find_walked : d.find path = .ok (place, a) ↔
    ∃ start, d.route path = .ok (start, parts path) ∧
      d.walk linkLimit start (parts path) = .ok ⟨place, some a⟩ := by
  rw [find_eq_ok]
  constructor
  · intro h
    obtain ⟨⟨start, ps⟩, hroute, hwalk⟩ := bind_eq_ok.1 h
    obtain ⟨-, -, -, -, rfl⟩ := route_ok.1 hroute
    exact ⟨start, hroute, hwalk⟩
  · rintro ⟨start, hroute, hwalk⟩
    exact bind_eq_ok.2 ⟨(start, parts path), hroute, hwalk⟩

end Find

namespace Plain

variable {d : Disk} (h : d.Plain)

include h

theorem directory_above {x y : Place} {a : Node} (hy : y ≠ []) (hx : d.node? (x ++ y) = some a) :
    ∃ mode, d.node? x = some (.directory mode) := by
  obtain ⟨b, hb, hdir⟩ := h.rooted.directory_above hy hx
  obtain ⟨mode, rfl⟩ := isDirectory_iff.1 hdir
  exact ⟨mode, hb⟩

theorem above {x : Place} {n : String} {a : Node} (hx : d.node? (x ++ [n]) = some a) :
    ∃ mode, d.node? x = some (.directory mode) :=
  h.directory_above (by simp) hx

/-- Above a node there are only directories. -/
theorem open_found {base x : Place} {a : Node} (hx : d.node? (base ++ x) = some a) :
    d.Open base x := by
  rintro y z b rfl hz hb
  rw [← List.append_assoc] at hx
  obtain ⟨mode, hd⟩ := h.directory_above hz hx
  rw [hb] at hd
  cases hd
  rfl

theorem upper_found {base x : Place} {mode : UInt32} {a : Node}
    (hbase : d.node? base = some (.directory mode)) (hx : d.node? (base ++ x) = some a) :
    (d.node? (base ++ x.dropLast)).isSome = true := by
  rcases List.eq_nil_or_concat x with rfl | ⟨y, n, rfl⟩
  · simp [hbase]
  · rw [List.concat_eq_append, ← List.append_assoc] at hx
    obtain ⟨mode', hd⟩ := h.above hx
    simp [hd]

/-- One name leads on to the node it names. -/
theorem walk_found {place : Place} {n : String} {mode : UInt32} {a : Node} (links : Nat)
    (rest : List String) (hd : d.node? place = some (.directory mode))
    (hn : d.node? (place ++ [n]) = some a) :
    d.walk links place (n :: rest) = d.walk links (place ++ [n]) rest := by
  obtain ⟨hname, -, hshort⟩ := h.rooted.name place n a hn
  rw [walk]
  simp only [hd, hn]
  rw [if_neg (by simp [hname.1, hname.2.1]), if_neg hname.2.2.1, if_neg (by omega)]
  cases a with
  | directory mode' => rfl
  | file number => rfl
  | link target => exact absurd hn (h.links _ target)

/-- Parts that lead to a directory can be left out of a walk that starts there. -/
theorem walk_append {place : Place} {mode : UInt32} (links : Nat) (before after : List String)
    (hup : ".." ∉ before) (hd : d.node? (place ++ steps before) = some (.directory mode)) :
    d.walk links place (before ++ after) = d.walk links (place ++ steps before) after := by
  induction before generalizing place with
  | nil => simp [steps]
  | cons part before ih =>
    simp only [List.mem_cons, not_or] at hup
    by_cases hblank : part = "" ∨ part = "."
    · have hsteps : steps (part :: before) = steps before := by
        rcases hblank with rfl | rfl <;> simp [steps]
      rw [hsteps] at hd ⊢
      obtain ⟨mode', hplace⟩ : ∃ mode, d.node? place = some (.directory mode) := by
        by_cases hs : steps before = []
        · rw [hs, List.append_nil] at hd
          exact ⟨mode, hd⟩
        · exact h.directory_above hs hd
      rw [List.cons_append, walk]
      simp only [hplace, if_pos hblank]
      exact ih hup.2 hd
    · have hsteps : steps (part :: before) = part :: steps before := by
        unfold steps
        rw [List.filter_cons_of_pos (by simpa using hblank)]
      have hassoc : place ++ part :: steps before = (place ++ [part]) ++ steps before := by simp
      rw [hsteps, hassoc] at hd
      obtain ⟨mode', hnext⟩ : ∃ mode, d.node? (place ++ [part]) = some (.directory mode) := by
        by_cases hs : steps before = []
        · rw [hs, List.append_nil] at hd
          exact ⟨mode, hd⟩
        · exact h.directory_above hs hd
      obtain ⟨mode'', hplace⟩ := h.above hnext
      rw [hsteps, hassoc, List.cons_append, h.walk_found links _ hplace hnext]
      exact ih hup.2 hd

/-- A row of names leads to what is there, if the directory it would be in is there. -/
theorem walk_names {place : Place} {mode : UInt32} (links : Nat) (names : List String)
    (hd : d.node? place = some (.directory mode)) (hnames : ∀ n ∈ names, EntryName n)
    (hopen : d.Open place names) :
    d.walk links place names =
      if (d.node? (place ++ names.dropLast)).isSome
        then .ok ⟨place ++ names, d.node? (place ++ names)⟩ else .error noEntry := by
  induction names generalizing place mode with
  | nil => rw [walk]; simp [hd]
  | cons n rest ih =>
    have hassoc : place ++ n :: rest = (place ++ [n]) ++ rest := by simp
    cases hn : d.node? (place ++ [n]) with
    | none =>
      obtain ⟨hname, -, hshort⟩ := hnames n (by simp)
      rw [walk]
      simp only [hd, hn]
      rw [if_neg (by simp [hname.1, hname.2.1]), if_neg hname.2.2.1, if_neg (by omega)]
      cases rest with
      | nil => simp [hd, hn]
      | cons m rest =>
        have hm := (hnames m (by simp)).name.1
        have hgone : d.node? (place ++ (n :: m :: rest).dropLast) = none := by
          rw [List.dropLast_cons_cons]
          have hsplit : place ++ n :: (m :: rest).dropLast =
              (place ++ [n]) ++ (m :: rest).dropLast := by simp
          rw [hsplit]
          exact h.rooted.nothing_within hn (List.prefix_append _ _)
        rw [hgone]
        simp [hm]
    | some a =>
      rw [h.walk_found links rest hd hn]
      cases rest with
      | nil => rw [walk]; simp [hd]
      | cons m rest =>
        have hdir : a.isDirectory = true := hopen [n] (m :: rest) a rfl (by simp) hn
        cases a with
        | directory mode' =>
          rw [ih hn (fun k hk => hnames k (by simp [hk])) ?_, hassoc]
          · have hlast : place ++ (n :: m :: rest).dropLast =
                (place ++ [n]) ++ (m :: rest).dropLast := by
              rw [List.dropLast_cons_cons]
              simp
            rw [hlast]
          · intro y z b hyz hz hb
            refine hopen (n :: y) z b (by rw [hyz]; rfl) hz ?_
            rwa [List.append_assoc] at hb
        | file number => cases hdir
        | link target => cases hdir

end Plain

theorem splitLast_name {before : List String} {n : String} (hn : IsName n) :
    splitLast (before ++ [n]) = (before, .name n true) := by
  unfold splitLast
  rw [List.reverse_append]
  simp [hn.1, hn.2.1, hn.2.2.1]

/-- The text of a path leads to a directory and from there along the names. -/
def Leads (d : Disk) (path : String) (base x : Place) : Prop :=
  ∃ start before, d.route path = .ok (start, before ++ x) ∧ ".." ∉ before ∧
    start ++ steps before = base

section Leads

variable {d : Disk} (h : d.Plain) {path : String} {base x : Place} {mode : UInt32}
  (hbase : d.node? base = some (.directory mode))

include h hbase

theorem resolve_leads (hpath : d.Leads path base x) (hx : ∀ n ∈ x, EntryName n)
    (hopen : d.Open base x) :
    d.resolve path =
      if (d.node? (base ++ x.dropLast)).isSome
        then .ok ⟨base ++ x, d.node? (base ++ x)⟩ else .error noEntry := by
  obtain ⟨start, before, hroute, hup, rfl⟩ := hpath
  unfold resolve
  rw [hroute]
  change d.walk linkLimit start (before ++ x) = _
  rw [h.walk_append linkLimit before x hup hbase, h.walk_names linkLimit x hbase hx hopen]

theorem find_leads (hpath : d.Leads path base x) (hx : ∀ n ∈ x, EntryName n)
    (hopen : d.Open base x) :
    d.find path =
      match d.node? (base ++ x) with
      | some node => .ok (base ++ x, node)
      | none => .error noEntry := by
  unfold find
  rw [resolve_leads h hbase hpath hx hopen]
  cases hn : d.node? (base ++ x) with
  | none => split_ifs <;> rfl
  | some node =>
    rw [if_pos (h.upper_found hbase hn)]
    rfl

theorem parent_leads {n : String} (hpath : d.Leads path base (x ++ [n]))
    (hx : ∀ m ∈ x ++ [n], EntryName m) (hopen : d.Open base (x ++ [n])) :
    d.parent path =
      if (d.node? (base ++ x)).isSome then .ok (base ++ x, .name n true) else .error noEntry := by
  obtain ⟨start, before, hroute, hup, rfl⟩ := hpath
  have hn := (hx n (by simp)).name
  have hopen' : d.Open (start ++ steps before) x := by
    intro y z a hyz hz ha
    exact hopen y (z ++ [n]) a (by rw [hyz, List.append_assoc]) (by simp) ha
  unfold parent
  rw [hroute, ← List.append_assoc]
  simp only [bind, Except.bind, splitLast_name hn]
  rw [h.walk_append linkLimit before x hup hbase,
    h.walk_names linkLimit x hbase (fun m hm => hx m (by simp [hm])) hopen']
  cases hnode : d.node? (start ++ steps before ++ x) with
  | none =>
    simp only [Option.isSome_none, Bool.false_eq_true, if_false]
    split_ifs <;> rfl
  | some a =>
    rw [if_pos (h.upper_found hbase hnode), if_pos (by simp)]
    have hdir : a.isDirectory = true := hopen x [n] a rfl (by simp) hnode
    cases a with
    | directory mode' => rfl
    | file number => cases hdir
    | link target => cases hdir

end Leads

end VolumeFS.Disk
