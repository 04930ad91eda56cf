import VolumeFS.Fault
import VolumeFS.Placement.Brick
import VolumeFS.Text.Digit
import VolumeFS.Text.Numeral

/-!
# Placement read from an attribute

A volume describes where a file lies by nested parentheses around tags:

    (<DISTRIBUTE:d> (<REPLICATE:r-0> <POSIX(/b1):node1:/b1/f> <POSIX(/b2):node2:/b2/f>))

The text is scanned for parentheses and tags, and everything else is skipped.
The bricks that follow a `REPLICATE` tag form one group, up to the parenthesis
that closes the one around the tag; a brick outside is a group of its own. A
`STRIPE` tag gives the stripe size as `[N]`.
-/

set_option autoImplicit false

namespace VolumeFS

structure Placement where
  /-- The groups of copies, in the order of the stripes. -/
  groups : List (List Brick)
  stripeSize : Option UInt64
  /-- There is a group, so that every chunk of the file lies on one. -/
  named : groups ≠ []
  deriving DecidableEq, Repr

namespace Placement

inductive Token where
  | opening
  | closing
  | replicate
  /-- A stripe tag and its size, where it has a usable one. -/
  | stripe (size : Option UInt64)
  | distribute
  | brick (brick : Brick)
  deriving DecidableEq, Repr, Inhabited

namespace Token

def after? (word text : List Char) : Option (List Char) :=
  if word.isPrefixOf text then some (text.drop word.length) else none

def upTo? (stop : Char) (text : List Char) : Option (List Char × List Char) :=
  match text.dropWhile (· ≠ stop) with
  | [] => none
  | _ :: rest => some (text.takeWhile (· ≠ stop), rest)

/-- The number in the first pair of brackets that holds digits only. -/
def stripeSize? : List Char → Option UInt64
  | [] => none
  | c :: text =>
    let run := text.takeWhile Text.isDecimalDigit
    if c = '[' ∧ run ≠ [] ∧ (text.dropWhile Text.isDecimalDigit).head? = some ']' then
      Text.uint64? (String.ofList run)
    else stripeSize? text

/-- A brick, given what follows its opening `<POSIX(`. -/
def brick? (text : List Char) : Option (Brick × List Char) :=
  match upTo? ')' text with
  | some (exportDir, ':' :: rest) =>
    let host := rest.takeWhile fun c => c ≠ ':' ∧ c ≠ '>'
    match rest.drop host.length with
    | ':' :: rest =>
      if host.isEmpty then none
      else (upTo? '>' rest).map fun (path, rest) =>
        (⟨String.ofList host, String.ofList exportDir, String.ofList path⟩, rest)
    | _ => none
  | _ => none

/-- A tag, given what follows its `<`. -/
def tag? (text : List Char) : Option (Token × List Char) :=
  match after? "REPLICATE".toList text with
  | some rest => (upTo? '>' rest).map fun (_, rest) => (replicate, rest)
  | none =>
    match after? "STRIPE".toList text with
    | some rest => (upTo? '>' rest).map fun (body, rest) => (stripe (stripeSize? body), rest)
    | none =>
      match after? "DISTRIBUTE".toList text with
      | some rest => (upTo? '>' rest).map fun (_, rest) => (distribute, rest)
      | none => do
        let rest ← after? "POSIX(".toList text
        (brick? rest).map fun (b, rest) => (brick b, rest)

def head? : List Char → Option (Token × List Char)
  | '(' :: text => some (opening, text)
  | ')' :: text => some (closing, text)
  | '<' :: text => tag? text
  | _ => none

theorem length_after? {word text rest : List Char} (h : after? word text = some rest) :
    rest.length ≤ text.length := by
  simp only [after?] at h
  split at h
  · simp only [Option.some.injEq] at h
    simp [← h]
  · simp at h

theorem length_upTo? {stop : Char} {text body rest : List Char}
    (h : upTo? stop text = some (body, rest)) : rest.length < text.length := by
  simp only [upTo?] at h
  split at h
  · simp at h
  · rename_i c r hd
    simp only [Option.some.injEq, Prod.mk.injEq] at h
    have := (List.dropWhile_suffix (l := text) (· ≠ stop)).length_le
    rw [hd] at this
    simp only [List.length_cons] at this
    rw [← h.2]
    omega

theorem length_brick? {text rest : List Char} {b : Brick} (h : brick? text = some (b, rest)) :
    rest.length < text.length := by
  unfold brick? at h
  split at h
  · rename_i dir r₁ h₁
    dsimp only at h
    split at h
    · rename_i r₂ h₂
      split at h
      · simp at h
      · obtain ⟨⟨path, r₃⟩, h₃, h₄⟩ := Option.map_eq_some_iff.1 h
        simp only [Prod.mk.injEq] at h₄
        have := length_upTo? h₁
        have := length_upTo? h₃
        have h₅ := congrArg List.length h₂
        simp only [List.length_drop, List.length_cons] at *
        rw [← h₄.2]
        omega
    · simp at h
  · simp at h

theorem length_tag? {text rest : List Char} {t : Token} (h : tag? text = some (t, rest)) :
    rest.length < text.length := by
  have tagged {word r : List Char} {f : List Char × List Char → Token × List Char}
      (hf : ∀ x, (f x).2 = x.2) (hr : after? word text = some r)
      (hu : (upTo? '>' r).map f = some (t, rest)) : rest.length < text.length := by
    obtain ⟨⟨body, r'⟩, h₁, h₂⟩ := Option.map_eq_some_iff.1 hu
    have e : r' = rest := by simpa [h₂] using (hf (body, r')).symm
    subst e
    have := length_upTo? h₁
    have := length_after? hr
    omega
  unfold tag? at h
  split at h
  · exact tagged (fun _ => rfl) ‹_› h
  · split at h
    · exact tagged (fun _ => rfl) ‹_› h
    · split at h
      · exact tagged (fun _ => rfl) ‹_› h
      · simp only [Option.bind_eq_bind, Option.bind_eq_some_iff] at h
        obtain ⟨r, h₁, h₂⟩ := h
        obtain ⟨⟨b, r'⟩, h₃, h₄⟩ := Option.map_eq_some_iff.1 h₂
        simp only [Prod.mk.injEq] at h₄
        have := length_after? h₁
        have := length_brick? h₃
        rw [← h₄.2]
        omega

/-- A token takes up at least one character. -/
theorem length_head? {text rest : List Char} {t : Token} (h : head? text = some (t, rest)) :
    rest.length < text.length := by
  unfold head? at h
  split at h
  · simp only [Option.some.injEq, Prod.mk.injEq] at h
    simp [← h.2]
  · simp only [Option.some.injEq, Prod.mk.injEq] at h
    simp [← h.2]
  · have := length_tag? h
    simp only [List.length_cons]
    omega
  · simp at h

/-- The tokens from left to right; a character that starts none is skipped. -/
def scan : List Char → List Token
  | [] => []
  | c :: text =>
    match _h : head? (c :: text) with
    | some (t, rest) => t :: scan rest
    | none => scan text
termination_by text => text.length
decreasing_by
  · exact length_head? (by assumption)
  · simp

end Token

structure Assembly where
  /-- How many parentheses are open. -/
  depth : Nat
  /-- The group being filled, its latest brick first, with the depth at which it was opened. -/
  current : Option (Nat × List Brick)
  /-- The finished groups, the latest first. -/
  groups : List (List Brick)
  stripeSize : Option UInt64
  deriving Repr, Inhabited

namespace Assembly

def empty : Assembly := ⟨0, none, [], none⟩

/-- Finishes the group being filled; a group without bricks is dropped. -/
def close (a : Assembly) : Assembly :=
  match a.current with
  | some (_, bricks) =>
    { a with
      current := none
      groups := if bricks.isEmpty then a.groups else bricks.reverse :: a.groups }
  | none => a

def step (a : Assembly) : Token → Assembly
  | .opening => { a with depth := a.depth + 1 }
  | .closing =>
    let closed := if a.current.any (·.1 == a.depth) then a.close else a
    { closed with depth := a.depth - 1 }
  | .replicate => { a.close with current := some (a.depth, []) }
  | .stripe (some size) => { a with stripeSize := some size }
  | .stripe none => a
  | .distribute => a
  | .brick b =>
    match a.current with
    | some (depth, bricks) => { a with current := some (depth, b :: bricks) }
    | none => { a with groups := [b] :: a.groups }

end Assembly

def ofTokens? (tokens : List Token) : Option Placement :=
  let a := (tokens.foldl Assembly.step .empty).close
  if h : a.groups.reverse = [] then none else some ⟨a.groups.reverse, a.stripeSize, h⟩

/-- Reads the attribute; it has to name at least one brick. -/
def parse (value : String) : Except Fault Placement :=
  match ofTokens? (Token.scan value.toList) with
  | some p => .ok p
  | none => .error (.backend s!"no bricks in pathinfo: {value}")

/-- The size of the largest group, at least 1 and at most 65535. -/
def replication (p : Placement) : UInt16 :=
  let largest := p.groups.foldl (fun size group => max size group.length) 1
  UInt16.ofNat (min largest 65535)

end Placement

end VolumeFS
