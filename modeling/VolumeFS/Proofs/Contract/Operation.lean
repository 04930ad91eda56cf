import VolumeFS.Proofs.Mount.Path
import VolumeFS.Proofs.Path.Normal
import VolumeFS.Proofs.Stream.Transfer
import VolumeFS.Proofs.Tree.Contents
import VolumeFS.Record.Fault

/-!
# The contract in operations

What callers ask of a file system, whichever way the volume is reached: each
operation is run to its end, a file being written or read as a whole. What an
operation shows is its value without ownership, or the kind of its fault. The
contract tells from the contents alone what is shown and what the contents are
afterwards.
-/

set_option autoImplicit false

namespace VolumeFS

open Volume VolumeFS.Tree

inductive Operation where
  | mkdirs (path : Path)
  /-- Creates a file, writes all bytes and closes it. -/
  | write (path : Path) (overwrite : Bool) (bufferSize : Option Nat) (data : List Byte)
  | delete (path : Path) (recursive : Bool)
  | rename (source destination : Path)
  | isThere (path : Path)
  | status (path : Path)
  | list (path : Path)
  /-- Opens a file and reads pieces of the size to the end. -/
  | read (path : Path) (size : Nat)
  deriving DecidableEq, Repr

inductive Answer where
  | done
  | written (count : UInt64)
  | truth (yes : Bool)
  | status (s : Status)
  | statuses (l : List Status)
  | bytes (data : List Byte)
  deriving DecidableEq, Repr

def Status.unowned (s : Status) : Status := { s with ownership := .unknown }

namespace Answer

def unowned : Answer → Answer
  | .status s => .status s.unowned
  | .statuses l => .statuses (l.map Status.unowned)
  | answer => answer

/-- What is compared of an outcome: the value without ownership, or the kind of the fault. -/
def shown : Except Fault Answer → Except String Answer
  | .ok answer => .ok answer.unowned
  | .error fault => .error fault.kindName

end Answer

namespace Operation

section Run

variable {φ ρ ω : Type} [FileSystem φ Run ρ ω] [Readable ρ Run] [Writable ω Run]

def fill (s : OutputStream ω) (data : List Byte) : ExceptT Fault Run UInt64 := do
  let (_, s) ← Stream.orFault (OutputStream.writeAll data) s
  let (_, s) ← Stream.orFault OutputStream.close s
  return s.bytesWritten

def drainFrom (size : Nat) : Nat → InputStream ρ → ExceptT Fault Run (List Byte)
  | 0, _ => throw (.other "the stream has no end")
  | fuel + 1, s => do
    let (piece, s) ← Stream.orFault (InputStream.read size) s
    if piece.isEmpty then return []
    return piece ++ (← drainFrom size fuel s)

def run (fs : φ) : Operation → ExceptT Fault Run Answer
  | .mkdirs p => do
    FileSystem.mkdirs fs p none
    return .done
  | .write p overwrite bufferSize data => do
    let s ← FileSystem.create fs p ⟨overwrite, bufferSize, none⟩
    return .written (← fill s data)
  | .delete p recursive => do
    FileSystem.delete fs p recursive
    return .done
  | .rename p q => do
    FileSystem.rename fs p q
    return .done
  | .isThere p => do return .truth (← FileSystem.isThere fs p)
  | .status p => do return .status (← FileSystem.status fs p)
  | .list p => do return .statuses (← FileSystem.list fs p)
  | .read p size => do
    let s ← FileSystem.openFile fs p
    return .bytes (← drainFrom size (longest + 1) s)

def runs (fs : φ) : List Operation → World → List (Except Fault Answer) × World
  | [], w => ([], w)
  | op :: rest, w =>
    let (answer, w) := outcome (op.run fs) w
    let (answers, w) := runs fs rest w
    (answer :: answers, w)

theorem runs_cons (fs : φ) (op : Operation) (rest : List Operation) (w : World) :
    runs fs (op :: rest) w = ((outcome (op.run fs) w).1 ::
      (runs fs rest (outcome (op.run fs) w).2).1, (runs fs rest (outcome (op.run fs) w).2).2) :=
  rfl

def Throughout (fs : φ) (contents : World → Contents) (P : Contents → Operation → Prop) :
    List Operation → World → Prop
  | [], _ => True
  | op :: rest, w =>
    P (contents w) op ∧ Throughout fs contents P rest (outcome (op.run fs) w).2

end Run

section Whole

variable {σ : Type}

/-- A fresh stream that can be filled takes all bytes and counts them. -/
theorem fill_outcome [Writable σ Run] {Has : σ → World → List Byte → Prop}
    {Wrote : World → List Byte → Prop} (h : Stream.Fills Has Wrote) {s : σ} {w : World}
    (hs : Has s w []) {data : List Byte} (hlen : data.length ≤ longest) (path : Path) :
    ∃ w', outcome (fill (.start s path) data) w = (.ok (UInt64.ofNat data.length), w') ∧
      Wrote w' data := by
  have hfresh : Counted.Counting Has (.start s) w [] := ⟨hs, rfl⟩
  obtain ⟨c, w₁, hall, hc, hcount⟩ :=
    (Counted.fills h).writeAll (.bare .writeZero) data hfresh (by simpa using hlen)
  rw [List.nil_append] at hc hcount
  obtain ⟨s₂, w₂, hshut, hwrote⟩ := h.shutdown hlen hc
  have hwrite : acted (OutputStream.writeAll data) (OutputStream.start s path) w =
      ((.ok (), ⟨c, path⟩), w₁) := by
    rw [OutputStream.writeAll, OutputStream.onWriter, acted_onPart]
    change (fun r : (Except IoError Unit × Counted σ) × World =>
      ((r.1.1, OutputStream.mk r.1.2 path), r.2))
        (acted (Stream.writeAllOr (.bare .writeZero) data) (Counted.start s) w) = _
    rw [hall]
  have hclose : acted OutputStream.close (⟨c, path⟩ : OutputStream σ) w₁ =
      ((.ok (), ⟨⟨s₂, c.count⟩, path⟩), w₂) := by
    rw [OutputStream.close, OutputStream.onWriter, acted_onPart]
    change (fun r : (Except IoError Unit × σ) × World =>
      ((r.1.1, OutputStream.mk ⟨r.1.2, c.count⟩ path), r.2))
        (acted Writable.shutdown c.inner w₁) = _
    rw [hshut]
  refine ⟨w₂, ?_, hwrote⟩
  unfold fill
  rw [outcome_bind_ok (outcome_orFault_ok hwrite), outcome_bind_ok (outcome_orFault_ok hclose),
    ← hcount]
  rfl

/-- Reading pieces to the end gives all that was left, and changes no file. -/
theorem drainFrom_outcome [Readable σ Run] {Left : σ → World → List Byte → Prop}
    (h : Stream.Feeds Left) {size : Nat} (hsize : 0 < size) (fuel : Nat) {s : InputStream σ}
    {w : World} {bytes : List Byte} (hfuel : bytes.length < fuel)
    (hleft : Left s.reader.inner w bytes) :
    ∃ w', outcome (drainFrom size fuel s) w = (.ok bytes, w') ∧ w.SameFiles w' := by
  induction fuel generalizing s w bytes with
  | zero => omega
  | succ fuel ih =>
    obtain ⟨piece, rest, c, w₁, hread, rfl, hend, hsame, hrest⟩ :=
      (Counted.feeds h).read hsize hleft
    have hpiece : acted (InputStream.read size) s w =
        ((.ok piece, { s with reader := c }), w₁) := by
      rw [InputStream.read, InputStream.onReader, acted_onPart, hread]
    rw [drainFrom, outcome_bind_ok (outcome_orFault_ok hpiece)]
    dsimp only
    cases piece with
    | nil =>
      rw [hend rfl]
      exact ⟨w₁, rfl, hsame⟩
    | cons b bs =>
      rw [List.length_append, List.length_cons] at hfuel
      obtain ⟨w₂, hdrain, hsame'⟩ := ih (s := { s with reader := c }) (by omega) hrest
      rw [if_neg (by simp), outcome_bind_ok hdrain]
      exact ⟨w₂, rfl, hsame.trans hsame'⟩

end Whole

def paths : Operation → List Path
  | .mkdirs p | .write p _ _ _ | .delete p _ | .isThere p | .status p | .list p | .read p _ => [p]
  | .rename p q => [p, q]

/-- Where a rename leads, told by the contents. -/
def target (l : Contents) (source destination : Path) : List String :=
  match source.name? with
  | some n => placeOf Content.kind l n destination.segments
  | none => destination.segments

/-- A path that can be used: it leads down from the root, not at the mounted directory by its own
path on the host, by names that the system takes, and not through a file. -/
structure Usable {m : Type → Type} (t : Mount m) (l : Contents) (p : Path) : Prop where
  absolute : p.absolute = true
  normal : p.Normal
  outside : p.startsWith t.directoryPath = false
  fits : t.Fits p.segments
  clear : Clear Content.kind l p.segments

/-- The root is neither deleted nor renamed, and no directory is moved to below itself. -/
def Allowed {m : Type → Type} (t : Mount m) (l : Contents) (op : Operation) : Prop :=
  (∀ p ∈ op.paths, Usable t l p) ∧
  match op with
  | .delete p _ => p.segments ≠ []
  | .rename p q => p.segments ≠ [] ∧
    (l p.segments = some .directory → p.segments <+: target l p q → target l p q = p.segments)
  | .write _ _ _ data => data.length ≤ longest
  | .read _ size => 0 < size
  | _ => True

/-- The system takes the path of all that a rename to a free place in a directory moves, where it
is moved to. -/
def Roomy {m : Type → Type} (t : Mount m) (l : Contents) : Operation → Prop
  | .rename p q => l (target l p q) = none → l (target l p q).dropLast ≠ none →
    ∀ y, Occupied l (p.segments ++ y) → t.Fits (target l p q ++ y)
  | _ => True

theorem Usable.names {m : Type → Type} {t : Mount m} {l : Contents} {p : Path} (h : Usable t l p) :
    ∀ n ∈ p.segments, IsName n :=
  Path.leads_names.1 (by simpa [Path.Normal, h.absolute] using h.normal)

section Contract

variable (label : Path → Path)

def statusAt (x : List String) : Content → Status
  | .directory => .directory (label (.ofNames x))
  | .file data => .file (label (.ofNames x)) (UInt64.ofNat data.length)

def statusesIn (l : Contents) (x : List String) (names : List String) : List Status :=
  (names.filterMap fun n => (l (x ++ [n])).map (statusAt label (x ++ [n]))).mergeSort
    fun a b => a.path.le b.path

structure Lists (l : Contents) (x : List String) (names : List String) : Prop where
  ordered : names.Pairwise (· ≤ ·)
  nodup : names.Nodup
  mem : ∀ n, n ∈ names ↔ Occupied l (x ++ [n])

open Classical in
/-- What an operation shows and the contents afterwards, if its paths are those of this file
system. -/
def Meets (l : Contents) : Operation → Except String Answer × Contents → Prop
  | .mkdirs p, result => result =
    match l p.segments with
    | some (.file _) => (.error "AlreadyExists", l)
    | _ => (.ok .done, made l p.segments)
  | .write p overwrite _ data, result => result =
    if l p.segments = some .directory then (.error "IsADirectory", l)
    else if l p.segments ≠ none ∧ overwrite = false then (.error "AlreadyExists", l)
    else (.ok (.written (UInt64.ofNat data.length)),
      Function.update (made l p.segments.dropLast) p.segments (some (.file data)))
  | .delete p recursive, result => result =
    if l p.segments = none then (.error "NotFound", l)
    else if recursive = false ∧ ∃ n, Occupied l (p.segments ++ [n]) then
      (.error "DirectoryNotEmpty", l)
    else (.ok .done, without l p.segments)
  | .rename p q, result => result =
    if l p.segments = none then (.error "NotFound", l)
    else if target l p q = p.segments then (.ok .done, l)
    else if l (target l p q) ≠ none then (.error "AlreadyExists", l)
    else if l (target l p q).dropLast = none then (.error "NotFound", l)
    else (.ok .done, moved l p.segments (target l p q))
  | .isThere p, result => result = (.ok (.truth (l p.segments).isSome), l)
  | .status p, result => result =
    match l p.segments with
    | some content => (.ok (.status (statusAt label p.segments content)), l)
    | none => (.error "NotFound", l)
  | .list p, result =>
    match l p.segments with
    | some .directory => ∃ names, Lists l p.segments names ∧
      result = (.ok (.statuses (statusesIn label l p.segments names)), l)
    | some (.file data) =>
      result = (.ok (.statuses [statusAt label p.segments (.file data)]), l)
    | none => result = (.error "NotFound", l)
  | .read p _, result => result =
    match l p.segments with
    | some (.file data) => (.ok (.bytes data), l)
    | some .directory => (.error "IsADirectory", l)
    | none => (.error "NotFound", l)

def Fulfilled {φ ρ ω : Type} [FileSystem φ Run ρ ω] [Readable ρ Run] [Writable ω Run] (fs : φ)
    (Sound : World → Prop) (contents : World → Contents) (op : Operation) (w : World) : Prop :=
  ∃ answer w', outcome (op.run fs) w = (answer, w') ∧ Sound w' ∧
    op.Meets label (contents w) (Answer.shown answer, contents w')

theorem Lists.unique {l : Contents} {x names names' : List String} (h : Lists l x names)
    (h' : Lists l x names') : names = names' := by
  have hperm : names.Perm names' :=
    (List.perm_ext_iff_of_nodup h.nodup h'.nodup).2 fun n => (h.mem n).trans (h'.mem n).symm
  exact hperm.eq_of_pairwise (fun _ _ _ _ => String.le_antisymm) h.ordered h'.ordered

/-- The contract leaves nothing open. -/
theorem meets_unique {l : Contents} {op : Operation} {a b : Except String Answer × Contents}
    (ha : op.Meets label l a) (hb : op.Meets label l b) : a = b := by
  cases op with
  | list p =>
    unfold Meets at ha hb
    rcases hl : l p.segments with _ | _ | _ <;> simp only [hl] at ha hb
    · exact ha.trans hb.symm
    · exact ha.trans hb.symm
    · obtain ⟨names, hnames, rfl⟩ := ha
      obtain ⟨names', hnames', rfl⟩ := hb
      rw [hnames.unique hnames']
  | mkdirs p => exact Eq.trans ha (Eq.symm hb)
  | write p overwrite bufferSize data => exact Eq.trans ha (Eq.symm hb)
  | delete p recursive => exact Eq.trans ha (Eq.symm hb)
  | rename p q => exact Eq.trans ha (Eq.symm hb)
  | isThere p => exact Eq.trans ha (Eq.symm hb)
  | status p => exact Eq.trans ha (Eq.symm hb)
  | read p size => exact Eq.trans ha (Eq.symm hb)

end Contract

end Operation

end VolumeFS
