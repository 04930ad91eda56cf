import Mathlib.Data.BitVec
import Mathlib.Tactic.IntervalCases
import VolumeFS.Permission

/-!
# Texts that are read as permissions

The symbolic form shows twelve bits and can be read back. The reader goes by the
place of each character and passes over what does not belong there, so that a
text of the right length always stands for some permission. Here it is said which
one: that whose symbolic form is the text with all such characters made dashes.
-/

set_option autoImplicit false

namespace VolumeFS.Permission

section Bits

variable {m : UInt16} {k : Nat} (hm : m.toBitVec = BitVec.twoPow 16 k) (hk : k < 16)

include hm hk

theorem test_bit (bits : UInt16) : (bits &&& m != 0) = bits.toBitVec.getLsbD k := by
  have hne : BitVec.twoPow 16 k ≠ 0#16 := by
    intro hzero
    have hbit := congrArg (BitVec.getLsbD · k) hzero
    simp [hk] at hbit
  have hzero : bits &&& m = 0 ↔ bits.toBitVec.getLsbD k = false := by
    rw [← UInt16.toBitVec_inj, UInt16.toBitVec_and, hm, BitVec.and_twoPow]
    cases bits.toBitVec.getLsbD k <;> simp [hne]
  cases hbit : bits.toBitVec.getLsbD k
  · simp [hzero.2 hbit]
  · simp [bne, hzero, hbit]

theorem chosen_bit (p : Prop) [Decidable p] (i : Nat) :
    (if p then m else 0).toBitVec.getLsbD i = (decide p && decide (i = k)) := by
  by_cases hp : p
  · simp [hp, hm, hk, eq_comm]
  · simp [hp]

end Bits

@[ext] structure Marks where
  read : Bool
  write : Bool
  execute : Bool
  special : Bool

/-- What three characters say of a class. It is not asked if a special letter is that of the
class. -/
def Marks.ofChars (r w x : Char) : Marks :=
  ⟨r = 'r', w = 'w', x = 'x' ∨ x = 's' ∨ x = 't', x = 's' ∨ x = 't' ∨ x = 'S' ∨ x = 'T'⟩

namespace Triad

def marks (t : Triad) (bits : UInt16) : Marks :=
  ⟨bits &&& (4 <<< t.shift) != 0, bits &&& (2 <<< t.shift) != 0,
    bits &&& (1 <<< t.shift) != 0, bits &&& t.special != 0⟩

def written (t : Triad) (k : Marks) : List Char :=
  [if k.read then 'r' else '-', if k.write then 'w' else '-',
    match k.execute, k.special with
    | true, true => t.letter
    | false, true => t.upper
    | true, false => 'x'
    | false, false => '-']

/-- Three characters with a dash in place of each that does not belong there, and with the special
letter of the class in place of that of another. -/
def tidied (t : Triad) (r w x : Char) : List Char :=
  [if r = 'r' then 'r' else '-', if w = 'w' then 'w' else '-',
    if x = 'x' then 'x'
    else if x = 's' ∨ x = 't' then t.letter
    else if x = 'S' ∨ x = 'T' then t.upper
    else '-']

theorem show_marks (t : Triad) (bits : UInt16) : t.show bits = t.written (t.marks bits) := rfl

theorem written_ofChars (t : Triad) (r w x : Char) :
    t.written (.ofChars r w x) = t.tidied r w x := by
  unfold written tidied Marks.ofChars
  by_cases hx : x = 'x'
  · simp [hx]
  by_cases hs : x = 's' ∨ x = 't'
  · obtain rfl | rfl := hs <;> simp
  by_cases hS : x = 'S' ∨ x = 'T'
  · obtain rfl | rfl := hS <;> simp
  · simp_all

/-- Where the bits of a class stand, its execute bit with write and read above it and its special
bit, and which letters it has. -/
structure Stands (t : Triad) (place extra : Nat) : Prop where
  read : ((4 : UInt16) <<< t.shift).toBitVec = BitVec.twoPow 16 (place + 2)
  write : ((2 : UInt16) <<< t.shift).toBitVec = BitVec.twoPow 16 (place + 1)
  execute : ((1 : UInt16) <<< t.shift).toBitVec = BitVec.twoPow 16 place
  special : t.special.toBitVec = BitVec.twoPow 16 extra
  below : place + 2 < 12 ∧ extra < 12
  letters : t.letter = 's' ∧ t.upper = 'S' ∨ t.letter = 't' ∧ t.upper = 'T'

section Stands

variable {t : Triad} {place extra : Nat} (h : t.Stands place extra)

include h

theorem Stands.marks_eq (bits : UInt16) :
    t.marks bits = ⟨bits.toBitVec.getLsbD (place + 2), bits.toBitVec.getLsbD (place + 1),
      bits.toBitVec.getLsbD place, bits.toBitVec.getLsbD extra⟩ := by
  have hbelow := h.below
  unfold marks
  rw [test_bit h.read (by omega), test_bit h.write (by omega), test_bit h.execute (by omega),
    test_bit h.special (by omega)]

/-- The bits that three characters stand for are those of the class. -/
theorem Stands.read_bit (r w x : Char) (i : Nat) :
    (t.read r w x).toBitVec.getLsbD i =
      ((Marks.ofChars r w x).read && decide (i = place + 2) ||
        (Marks.ofChars r w x).write && decide (i = place + 1) ||
        (Marks.ofChars r w x).execute && decide (i = place) ||
        (Marks.ofChars r w x).special && decide (i = extra)) := by
  have hbelow := h.below
  unfold Triad.read Marks.ofChars
  simp only [UInt16.toBitVec_or, BitVec.getLsbD_or]
  rw [chosen_bit h.read (by omega), chosen_bit h.write (by omega), chosen_bit h.execute (by omega),
    chosen_bit h.special (by omega)]

/-- What was written is read back. -/
theorem Stands.written_back (k : Marks) :
    ∃ r w x, t.written k = [r, w, x] ∧ Marks.ofChars r w x = k := by
  refine ⟨_, _, _, rfl, ?_⟩
  obtain ⟨r, w, x, s⟩ := k
  obtain ⟨hl, hu⟩ | ⟨hl, hu⟩ := h.letters
  all_goals
    rw [hl, hu]
    cases r <;> cases w <;> cases x <;> cases s <;> rfl

theorem Stands.written_injective {k k' : Marks} (hk : t.written k = t.written k') : k = k' := by
  obtain ⟨r, w, x, hwritten, rfl⟩ := h.written_back k
  obtain ⟨r', w', x', hwritten', rfl⟩ := h.written_back k'
  rw [hwritten, hwritten'] at hk
  cases hk
  rfl

end Stands

end Triad

theorem owner_stands : owner.Stands 6 11 :=
  ⟨by decide, by decide, by decide, by decide, by decide, by decide⟩

theorem group_stands : group.Stands 3 10 :=
  ⟨by decide, by decide, by decide, by decide, by decide, by decide⟩

theorem others_stands : others.Stands 0 9 :=
  ⟨by decide, by decide, by decide, by decide, by decide, by decide⟩

def IsMode (p : Permission) : Prop := p.bits ≤ 0o7777

theorem isMode_iff (p : Permission) :
    p.IsMode ↔ ∀ i, 12 ≤ i → p.bits.toBitVec.getLsbD i = false := by
  have hlt : p.IsMode ↔ p.bits.toNat < 2 ^ 12 := by
    unfold IsMode
    rw [UInt16.le_iff_toNat_le]
    exact Nat.lt_succ_iff.symm
  rw [hlt]
  constructor
  · intro h i hi
    exact Nat.testBit_lt_two_pow (lt_of_lt_of_le h (Nat.pow_le_pow_right (by decide) hi))
  · exact Nat.lt_pow_two_of_testBit _

/-- The three classes tell all twelve bits. -/
theorem eq_of_marks {p q : Permission} (hp : p.IsMode) (hq : q.IsMode)
    (howner : owner.marks p.bits = owner.marks q.bits)
    (hgroup : group.marks p.bits = group.marks q.bits)
    (hothers : others.marks p.bits = others.marks q.bits) : p = q := by
  rw [owner_stands.marks_eq, owner_stands.marks_eq, Marks.mk.injEq] at howner
  rw [group_stands.marks_eq, group_stands.marks_eq, Marks.mk.injEq] at hgroup
  rw [others_stands.marks_eq, others_stands.marks_eq, Marks.mk.injEq] at hothers
  have hbits : p.bits.toBitVec = q.bits.toBitVec := by
    apply BitVec.eq_of_getLsbD_eq
    intro i _
    by_cases hi : 12 ≤ i
    · rw [(isMode_iff p).1 hp i hi, (isMode_iff q).1 hq i hi]
    · interval_cases i <;> simp_all
  cases p
  cases q
  exact congrArg Permission.mk (UInt16.toBitVec_inj.1 hbits)

theorem symbolic_injective {p q : Permission} (hp : p.IsMode) (hq : q.IsMode)
    (h : p.symbolic.toList = q.symbolic.toList) : p = q := by
  simp only [symbolic, String.toList_ofList, Triad.show_marks] at h
  obtain ⟨h, hothers⟩ := List.append_inj h rfl
  obtain ⟨howner, hgroup⟩ := List.append_inj h rfl
  exact eq_of_marks hp hq (owner_stands.written_injective howner)
    (group_stands.written_injective hgroup) (others_stands.written_injective hothers)

/-- Nine characters, class by class, with dashes in place of what does not belong there. -/
def tidied : List Char → List Char
  | [a, b, c, d, e, f, g, h, i] =>
    owner.tidied a b c ++ group.tidied d e f ++ others.tidied g h i
  | cs => cs

def ofChars (a b c d e f g h i : Char) : Permission :=
  ⟨owner.read a b c ||| group.read d e f ||| others.read g h i⟩

section Nine

variable (a b c d e f g h i : Char)

theorem ofChars_bit (j : Nat) :
    (ofChars a b c d e f g h i).bits.toBitVec.getLsbD j =
      ((owner.read a b c).toBitVec.getLsbD j || (group.read d e f).toBitVec.getLsbD j ||
        (others.read g h i).toBitVec.getLsbD j) := by
  simp only [ofChars, UInt16.toBitVec_or, BitVec.getLsbD_or]

theorem ofChars_isMode : (ofChars a b c d e f g h i).IsMode := by
  rw [isMode_iff]
  intro j hj
  rw [ofChars_bit, owner_stands.read_bit, group_stands.read_bit, others_stands.read_bit]
  simp only [Bool.or_eq_false_iff, Bool.and_eq_false_iff, decide_eq_false_iff_not]
  omega

/-- Each class is told by its own three characters. -/
theorem ofChars_marks :
    owner.marks (ofChars a b c d e f g h i).bits = .ofChars a b c ∧
      group.marks (ofChars a b c d e f g h i).bits = .ofChars d e f ∧
      others.marks (ofChars a b c d e f g h i).bits = .ofChars g h i := by
  rw [owner_stands.marks_eq, group_stands.marks_eq, others_stands.marks_eq]
  simp only [ofChars_bit, owner_stands.read_bit, group_stands.read_bit, others_stands.read_bit]
  simp

theorem ofChars_symbolic :
    (ofChars a b c d e f g h i).symbolic.toList = tidied [a, b, c, d, e, f, g, h, i] := by
  obtain ⟨howner, hgroup, hothers⟩ := ofChars_marks a b c d e f g h i
  simp only [symbolic, String.toList_ofList, Triad.show_marks, howner, hgroup, hothers,
    Triad.written_ofChars, tidied]

end Nine

theorem nine_of_length {cs : List Char} (h : cs.length = 9) :
    ∃ a b c d e f g h i, cs = [a, b, c, d, e, f, g, h, i] := by
  match cs, h with
  | [a, b, c, d, e, f, g, h, i], _ => exact ⟨a, b, c, d, e, f, g, h, i, rfl⟩

/-- What is read is the permission whose symbolic form is the tidied text. -/
theorem ofNine?_eq_some_iff (cs : List Char) (p : Permission) :
    ofNine? cs = some p ↔ cs.length = 9 ∧ p.IsMode ∧ p.symbolic.toList = tidied cs := by
  constructor
  · intro h
    unfold ofNine? at h
    split at h
    · cases h
      exact ⟨rfl, ofChars_isMode .., ofChars_symbolic ..⟩
    · cases h
  · rintro ⟨hlength, hmode, hform⟩
    obtain ⟨a, b, c, d, e, f, g, h, i, rfl⟩ := nine_of_length hlength
    rw [← ofChars_symbolic] at hform
    rw [symbolic_injective hmode (ofChars_isMode ..) hform]
    rfl

theorem tidied_symbolic (p : Permission) : tidied p.symbolic.toList = p.symbolic.toList := by
  obtain ⟨a, b, c, howner, hback⟩ := owner_stands.written_back (owner.marks p.bits)
  obtain ⟨d, e, f, hgroup, hback₁⟩ := group_stands.written_back (group.marks p.bits)
  obtain ⟨g, h, i, hothers, hback₂⟩ := others_stands.written_back (others.marks p.bits)
  have hform : p.symbolic.toList = [a, b, c, d, e, f, g, h, i] := by
    simp only [symbolic, String.toList_ofList, Triad.show_marks, howner, hgroup, hothers]
    rfl
  rw [hform, tidied, ← Triad.written_ofChars, ← Triad.written_ofChars, ← Triad.written_ofChars,
    hback, hback₁, hback₂, howner, hgroup, hothers]
  rfl

/-- Every nine characters stand for a permission. -/
theorem exists_tidied {cs : List Char} (hlength : cs.length = 9) :
    ∃ p : Permission, p.IsMode ∧ p.symbolic.toList = tidied cs := by
  obtain ⟨a, b, c, d, e, f, g, h, i, rfl⟩ := nine_of_length hlength
  exact ⟨_, ofChars_isMode a b c d e f g h i, ofChars_symbolic ..⟩

/-- A text is a symbolic form exactly if there is nothing to tidy. -/
theorem tidied_eq_self_iff {cs : List Char} (hlength : cs.length = 9) :
    tidied cs = cs ↔ ∃ p : Permission, p.symbolic.toList = cs := by
  constructor
  · intro hcs
    obtain ⟨p, -, hp⟩ := exists_tidied hlength
    exact ⟨p, hp.trans hcs⟩
  · rintro ⟨p, rfl⟩
    exact tidied_symbolic p

/-- The text is nine characters, or these behind one that tells the type of the file. -/
def Bare (text nine : List Char) : Prop :=
  nine.length = 9 ∧ (text = nine ∨ ∃ type, text = type :: nine)

theorem Bare.eq_drop {text nine : List Char} (h : Bare text nine) :
    (if text.length = 10 then text.drop 1 else text) = nine := by
  obtain ⟨hnine, rfl | ⟨type, rfl⟩⟩ := h
  · rw [if_neg (by omega)]
  · rw [if_pos (by rw [List.length_cons, hnine])]
    rfl

theorem bare_drop {text : List Char}
    (h : (if text.length = 10 then text.drop 1 else text).length = 9) :
    Bare text (if text.length = 10 then text.drop 1 else text) := by
  refine ⟨h, ?_⟩
  by_cases hten : text.length = 10
  · cases text with
    | nil => cases hten
    | cons type nine => exact .inr ⟨type, by rw [if_pos hten]; rfl⟩
  · exact .inl (by rw [if_neg hten])

/-- The text has nine characters, or ten with the type of the file. The permission shows those of
the nine that belong where they stand and nothing else. -/
def StandsFor (text : List Char) (p : Permission) : Prop :=
  ∃ nine, Bare text nine ∧ p.IsMode ∧ p.symbolic.toList = tidied nine

def Shown (text : List Char) (p : Permission) : Prop :=
  ∃ nine, Bare text nine ∧ p.IsMode ∧ p.symbolic.toList = nine

/-- Nine characters of the text, if there are as many, are the symbolic form of a permission. -/
def IsProper (text : List Char) : Prop :=
  ∀ nine, Bare text nine → ∃ p : Permission, p.symbolic.toList = nine

/-- A text that is no symbolic form stands for a permission that it does not show. -/
theorem standsFor_iff_shown (text : List Char) :
    (∀ p, StandsFor text p ↔ Shown text p) ↔ IsProper text := by
  constructor
  · intro h nine hbare
    obtain ⟨p, hp⟩ := exists_tidied hbare.1
    obtain ⟨nine', hbare', -, hform⟩ := (h p).1 ⟨nine, hbare, hp⟩
    have hnine : nine' = nine := hbare'.eq_drop.symm.trans hbare.eq_drop
    exact ⟨p, hform.trans hnine⟩
  · intro h p
    have htidied : ∀ nine, Bare text nine → tidied nine = nine := fun nine hbare =>
      (tidied_eq_self_iff hbare.1).2 (h nine hbare)
    constructor
    · rintro ⟨nine, hbare, hmode, hform⟩
      exact ⟨nine, hbare, hmode, hform.trans (htidied nine hbare)⟩
    · rintro ⟨nine, hbare, hmode, hform⟩
      exact ⟨nine, hbare, hmode, hform.trans (htidied nine hbare).symm⟩

theorem standsFor_iff (text : List Char) (p : Permission) :
    StandsFor text p ↔ ofNine? (if text.length = 10 then text.drop 1 else text) = some p := by
  rw [ofNine?_eq_some_iff]
  constructor
  · rintro ⟨nine, hbare, hp⟩
    rw [hbare.eq_drop]
    exact ⟨hbare.1, hp⟩
  · rintro ⟨hlength, hp⟩
    exact ⟨_, bare_drop hlength, hp⟩

/-- Only the length decides if a text stands for a permission. -/
theorem exists_standsFor_iff (text : List Char) :
    (∃ p, StandsFor text p) ↔ text.length = 9 ∨ text.length = 10 := by
  constructor
  · rintro ⟨p, nine, ⟨hnine, rfl | ⟨type, rfl⟩⟩, -⟩
    · exact .inl hnine
    · exact .inr (by rw [List.length_cons, hnine])
  · intro h
    have hlength : (if text.length = 10 then text.drop 1 else text).length = 9 := by
      split
      · rw [List.length_drop]
        omega
      · omega
    obtain ⟨p, hp⟩ := exists_tidied hlength
    exact ⟨p, _, bare_drop hlength, hp⟩

theorem ofSymbolic_eq_ok_iff (text : String) (p : Permission) :
    ofSymbolic text = .ok p ↔ StandsFor text.toList p := by
  rw [standsFor_iff]
  unfold ofSymbolic
  dsimp only
  split
  · rename_i q hq
    rw [hq, Except.ok.injEq, Option.some.injEq]
  · rename_i hnone
    rw [hnone]
    exact ⟨nofun, nofun⟩

theorem ofSymbolic_refuses {text : String}
    (h : text.toList.length ≠ 9 ∧ text.toList.length ≠ 10) :
    ofSymbolic text = .error (.invalidArgument s!"bad permission string: {text}") := by
  cases hread : ofNine? (if text.toList.length = 10 then text.toList.drop 1 else text.toList) with
  | none =>
    unfold ofSymbolic
    dsimp only
    rw [hread]
  | some p =>
    obtain hnine | hten := (exists_standsFor_iff _).1 ⟨p, (standsFor_iff _ p).2 hread⟩
    · exact absurd hnine h.1
    · exact absurd hten h.2

end VolumeFS.Permission
