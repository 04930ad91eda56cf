import Mathlib.Data.List.Basic
import Mathlib.Data.List.Infix
import Mathlib.Data.List.TakeWhile
import VolumeFS.Placement.Pathinfo

/-!
# Words of a placement text

A token is written by a word: a parenthesis, or a tag that goes from its opening
to the next closing angle bracket. No word is the beginning of another one, so a
text begins with one word at most. The tokens of a text are those of the words
that are met from left to right, where a word is left only at its end and a
character that begins none is passed over.
-/

set_option autoImplicit false

namespace VolumeFS

namespace Brick

structure Delimited (b : Brick) : Prop where
  exportDir : ')' ∉ b.exportDir.toList
  host : b.host.toList ≠ [] ∧ ':' ∉ b.host.toList ∧ '>' ∉ b.host.toList
  path : '>' ∉ b.path.toList

instance (b : Brick) : Decidable b.Delimited :=
  decidable_of_iff (')' ∉ b.exportDir.toList ∧
      (b.host.toList ≠ [] ∧ ':' ∉ b.host.toList ∧ '>' ∉ b.host.toList) ∧ '>' ∉ b.path.toList)
    ⟨fun h => ⟨h.1, h.2.1, h.2.2⟩, fun h => ⟨h.exportDir, h.host, h.path⟩⟩

/-- The fields of a brick as they stand in its tag, up to the end of the tag. -/
def fields (b : Brick) : List Char :=
  b.exportDir.toList ++ ')' :: ':' :: (b.host.toList ++ ':' :: (b.path.toList ++ ['>']))

def tag (b : Brick) : List Char :=
  '<' :: ("POSIX(".toList ++ b.fields)

end Brick

namespace Placement.Token

inductive Word : List Char → Token → Prop
  | opening : Word ['('] .opening
  | closing : Word [')'] .closing
  | replicate {body : List Char} (h : '>' ∉ body) :
      Word ('<' :: ("REPLICATE".toList ++ (body ++ ['>']))) .replicate
  | stripe {body : List Char} (h : '>' ∉ body) :
      Word ('<' :: ("STRIPE".toList ++ (body ++ ['>']))) (.stripe (stripeSize? body))
  | distribute {body : List Char} (h : '>' ∉ body) :
      Word ('<' :: ("DISTRIBUTE".toList ++ (body ++ ['>']))) .distribute
  | brick {b : Brick} (h : b.Delimited) : Word b.tag (.brick b)

/-- The tokens met in a text from left to right. -/
inductive Scanned : List Char → List Token → Prop
  | done : Scanned [] []
  | word {word rest : List Char} {t : Token} {tokens : List Token} :
      Word word t → Scanned rest tokens → Scanned (word ++ rest) (t :: tokens)
  | other {c : Char} {rest : List Char} {tokens : List Token} :
      (∀ word after t, c :: rest = word ++ after → ¬ Word word t) →
      Scanned rest tokens → Scanned (c :: rest) tokens

section Pieces

variable {text rest body : List Char}

/-- A run of characters goes up to the first one that is not of its kind. -/
theorem run_iff {p : Char → Bool} {stop : Char} (hstop : p stop = false) :
    text.takeWhile p = body ∧ text.dropWhile p = stop :: rest ↔
      text = body ++ stop :: rest ∧ ∀ c ∈ body, p c = true := by
  constructor
  · rintro ⟨rfl, hdrop⟩
    have hsplit := List.takeWhile_append_dropWhile (p := p) (l := text)
    rw [hdrop] at hsplit
    exact ⟨hsplit.symm, fun c hc => List.mem_takeWhile_imp hc⟩
  · rintro ⟨rfl, hbody⟩
    rw [List.takeWhile_append_of_pos hbody, List.dropWhile_append_of_pos hbody]
    simp [hstop]

theorem after?_iff {word : List Char} : after? word text = some rest ↔ text = word ++ rest := by
  unfold after?
  constructor
  · intro h
    split_ifs at h with hp
    obtain ⟨after, rfl⟩ := List.isPrefixOf_iff_prefix.mp hp
    cases Option.some.inj h
    rw [List.drop_left]
  · rintro rfl
    rw [if_pos (List.isPrefixOf_iff_prefix.mpr (List.prefix_append _ _)), List.drop_left]

theorem upTo?_iff {stop : Char} :
    upTo? stop text = some (body, rest) ↔ text = body ++ stop :: rest ∧ stop ∉ body := by
  have hinside : (∀ c ∈ body, decide (c ≠ stop) = true) ↔ stop ∉ body := by
    simp only [decide_eq_true_eq]
    exact ⟨fun h hm => h stop hm rfl, fun h c hc he => h (he ▸ hc)⟩
  rw [← hinside, ← run_iff (p := fun c => decide (c ≠ stop)) (by simp)]
  unfold upTo?
  cases hd : text.dropWhile (fun c => decide (c ≠ stop)) with
  | nil => simp
  | cons c after =>
    have hc := List.head?_dropWhile_not (fun c => decide (c ≠ stop)) text
    rw [hd] at hc
    simp [show c = stop by simpa using hc]

theorem in_host_iff :
    (∀ c ∈ body, decide (c ≠ ':' ∧ c ≠ '>') = true) ↔ ':' ∉ body ∧ '>' ∉ body := by
  simp only [decide_eq_true_eq]
  constructor
  · intro h
    exact ⟨fun hm => (h _ hm).1 rfl, fun hm => (h _ hm).2 rfl⟩
  · intro h c hc
    exact ⟨fun he => h.1 (he ▸ hc), fun he => h.2 (he ▸ hc)⟩

theorem brick?_fields {b : Brick} (hb : b.Delimited) (rest : List Char) :
    brick? (b.fields ++ rest) = some (b, rest) := by
  have hdir : upTo? ')' (b.fields ++ rest) = some (b.exportDir.toList,
      ':' :: (b.host.toList ++ ':' :: (b.path.toList ++ '>' :: rest))) := by
    apply upTo?_iff.mpr
    exact ⟨by simp [Brick.fields], hb.exportDir⟩
  have hhost : (b.host.toList ++ ':' :: (b.path.toList ++ '>' :: rest)).takeWhile
      (fun c => decide (c ≠ ':' ∧ c ≠ '>')) = b.host.toList :=
    ((run_iff (by decide)).mpr ⟨rfl, in_host_iff.mpr hb.host.2⟩).1
  have hpath : upTo? '>' (b.path.toList ++ '>' :: rest) = some (b.path.toList, rest) :=
    upTo?_iff.mpr ⟨rfl, hb.path⟩
  unfold brick?
  simp only [hdir, hhost, List.drop_left]
  rw [if_neg (by simpa using hb.host.1), hpath]
  simp

theorem fields_of_brick? {b : Brick} (h : brick? text = some (b, rest)) :
    b.Delimited ∧ text = b.fields ++ rest := by
  unfold brick? at h
  split at h
  case h_2 => cases h
  case h_1 dir after hdir =>
    obtain ⟨rfl, hexport⟩ := upTo?_iff.mp hdir
    have hsplit := List.takeWhile_append_dropWhile
      (p := fun c => decide (c ≠ ':' ∧ c ≠ '>')) (l := after)
    generalize hhost : after.takeWhile (fun c => decide (c ≠ ':' ∧ c ≠ '>')) = host at h hsplit
    dsimp only at h
    rw [← hsplit, List.drop_left] at h
    split at h
    case h_2 => cases h
    case h_1 tail htail =>
      split_ifs at h with hsome
      obtain ⟨⟨path, stop⟩, hpath, he⟩ := Option.map_eq_some_iff.mp h
      cases he
      obtain ⟨rfl, hp⟩ := upTo?_iff.mp hpath
      obtain ⟨rfl, hin⟩ := (run_iff (by decide)).mp ⟨hhost, htail⟩
      constructor
      · exact ⟨by simpa using hexport, by simpa using ⟨by simpa using hsome, in_host_iff.mp hin⟩,
          by simpa using hp⟩
      · simp [Brick.fields]

end Pieces

theorem head?_brick (text : List Char) : head? ('<' :: ("POSIX(".toList ++ text)) =
    (brick? text).map fun (b, rest) => (brick b, rest) := by
  have hafter : after? "POSIX(".toList ("POSIX(".toList ++ text) = some text := after?_iff.mpr rfl
  show tag? ("POSIX(".toList ++ text) = _
  rw [tag?, show after? "REPLICATE".toList _ = none from rfl,
    show after? "STRIPE".toList _ = none from rfl,
    show after? "DISTRIBUTE".toList _ = none from rfl, hafter]
  rfl

/-- A text that begins with a word begins with its token. -/
theorem head?_word {word : List Char} {t : Token} (h : Word word t) (rest : List Char) :
    head? (word ++ rest) = some (t, rest) := by
  have hafter (name tail : List Char) : after? name (name ++ tail) = some tail :=
    after?_iff.mpr rfl
  have hupTo {body : List Char} (hb : '>' ∉ body) :
      upTo? '>' (body ++ '>' :: rest) = some (body, rest) := upTo?_iff.mpr ⟨rfl, hb⟩
  cases h with
  | opening => rfl
  | closing => rfl
  | @replicate body hb =>
    show tag? ("REPLICATE".toList ++ (body ++ ['>']) ++ rest) = _
    rw [List.append_assoc, List.append_assoc, tag?, hafter]
    show (upTo? '>' (body ++ '>' :: rest)).map _ = _
    rw [hupTo hb]
    rfl
  | @stripe body hb =>
    show tag? ("STRIPE".toList ++ (body ++ ['>']) ++ rest) = _
    rw [List.append_assoc, List.append_assoc, tag?,
      show after? "REPLICATE".toList _ = none from rfl, hafter]
    show (upTo? '>' (body ++ '>' :: rest)).map _ = _
    rw [hupTo hb]
    rfl
  | @distribute body hb =>
    show tag? ("DISTRIBUTE".toList ++ (body ++ ['>']) ++ rest) = _
    rw [List.append_assoc, List.append_assoc, tag?,
      show after? "REPLICATE".toList _ = none from rfl,
      show after? "STRIPE".toList _ = none from rfl, hafter]
    show (upTo? '>' (body ++ '>' :: rest)).map _ = _
    rw [hupTo hb]
    rfl
  | @brick b hb =>
    show head? ('<' :: ("POSIX(".toList ++ b.fields ++ rest)) = _
    rw [List.append_assoc, head?_brick, brick?_fields hb]
    rfl

/-- What follows the name of a tag goes on to the end of the tag. -/
theorem upTo?_tag {text name after rest : List Char} {f : List Char → Token} {t : Token}
    (hname : after? name text = some after)
    (h : (upTo? '>' after).map (fun x => (f x.1, x.2)) = some (t, rest)) :
    ∃ body, '>' ∉ body ∧ t = f body ∧ text = name ++ (body ++ ['>']) ++ rest := by
  obtain ⟨⟨body, tail⟩, hbody, he⟩ := Option.map_eq_some_iff.mp h
  obtain ⟨rfl, hb⟩ := upTo?_iff.mp hbody
  cases he
  exact ⟨body, hb, rfl, by rw [after?_iff.mp hname]; simp⟩

/-- A token at the beginning of a text was read off one of its words. -/
theorem word_of_head? {text rest : List Char} {t : Token} (h : head? text = some (t, rest)) :
    ∃ word, Word word t ∧ text = word ++ rest := by
  unfold head? at h
  split at h
  case h_1 =>
    cases h
    exact ⟨_, .opening, rfl⟩
  case h_2 =>
    cases h
    exact ⟨_, .closing, rfl⟩
  case h_4 => cases h
  case h_3 tag =>
    unfold tag? at h
    split at h
    case h_1 after hname =>
      obtain ⟨body, hb, rfl, rfl⟩ := upTo?_tag (f := fun _ => replicate) hname h
      exact ⟨_, .replicate hb, rfl⟩
    split at h
    case h_1 after hname =>
      obtain ⟨body, hb, rfl, rfl⟩ := upTo?_tag (f := fun body => stripe (stripeSize? body)) hname h
      exact ⟨_, .stripe hb, rfl⟩
    split at h
    case h_1 after hname =>
      obtain ⟨body, hb, rfl, rfl⟩ := upTo?_tag (f := fun _ => distribute) hname h
      exact ⟨_, .distribute hb, rfl⟩
    obtain ⟨after, hname, hbrick⟩ := Option.bind_eq_some_iff.mp h
    obtain ⟨⟨b, tail⟩, hfields, he⟩ := Option.map_eq_some_iff.mp hbrick
    cases he
    obtain ⟨hb, rfl⟩ := fields_of_brick? hfields
    exact ⟨_, .brick hb, by rw [after?_iff.mp hname]; simp [Brick.tag]⟩

section Scan

variable {text rest : List Char}

theorem scan_word {word : List Char} {t : Token} (h : Word word t) (rest : List Char) :
    scan (word ++ rest) = t :: scan rest := by
  have hhead := head?_word h rest
  cases htext : word ++ rest with
  | nil =>
    rw [htext] at hhead
    cases hhead
  | cons c text =>
    rw [htext] at hhead
    rw [scan]
    split
    · next t' rest' hfound =>
      cases hfound.symm.trans hhead
      rfl
    · next hnone =>
      cases hnone.symm.trans hhead

theorem scan_none {c : Char} (h : head? (c :: rest) = none) : scan (c :: rest) = scan rest := by
  rw [scan]
  split
  · next t after hfound => cases hfound.symm.trans h
  · rfl

theorem scan_other {c : Char} (h : ∀ word after t, c :: rest = word ++ after → ¬ Word word t) :
    scan (c :: rest) = scan rest := by
  apply scan_none
  cases hhead : head? (c :: rest) with
  | none => rfl
  | some found =>
    obtain ⟨word, hword, he⟩ := word_of_head? hhead
    exact absurd hword (h word found.2 found.1 he)

theorem scan_scanned (text : List Char) : Scanned text (scan text) := by
  induction text using scan.induct with
  | case1 =>
    rw [scan]
    exact .done
  | case2 c text t rest hhead ih =>
    obtain ⟨word, hword, he⟩ := word_of_head? hhead
    rw [he, scan_word hword]
    exact .word hword ih
  | case3 c text hhead ih =>
    rw [scan_none hhead]
    apply Scanned.other _ ih
    intro word after t he hword
    rw [he, head?_word hword] at hhead
    cases hhead

/-- Scanning a text finds the tokens of its words from left to right. -/
theorem scanned_iff {tokens : List Token} : Scanned text tokens ↔ tokens = scan text := by
  constructor
  · intro h
    induction h with
    | done => rw [scan]
    | word hword _ ih => rw [scan_word hword, ih]
    | other hother _ ih => rw [scan_other hother, ih]
  · rintro rfl
    exact scan_scanned text

def Idle (c : Char) : Prop := c ≠ '(' ∧ c ≠ ')' ∧ c ≠ '<'

theorem word_starts {word : List Char} {t : Token} (h : Word word t) :
    ∃ c tail, word = c :: tail ∧ ¬ Idle c := by
  cases h <;> exact ⟨_, _, rfl, by simp [Idle]⟩

theorem scan_idle {gap : List Char} (h : ∀ c ∈ gap, Idle c) (rest : List Char) :
    scan (gap ++ rest) = scan rest := by
  induction gap with
  | nil => rfl
  | cons c gap ih =>
    rw [List.cons_append, scan_other, ih fun d hd => h d (List.mem_cons_of_mem c hd)]
    intro word after t he hword
    obtain ⟨d, tail, rfl, hd⟩ := word_starts hword
    have hc : c = d := List.head_eq_of_cons_eq he
    exact hd (hc ▸ h c List.mem_cons_self)

/-- A brick that a text names was read off its tag. -/
theorem delimited_of_mem_scan {b : Brick} (h : Token.brick b ∈ scan text) : b.Delimited := by
  have hscan := scan_scanned text
  generalize scan text = tokens at h hscan
  induction hscan with
  | done => cases h
  | word hword _ ih =>
    cases h with
    | head =>
      cases hword with
      | brick hb => exact hb
    | tail _ h => exact ih h
  | other _ _ ih => exact ih h

end Scan

end Placement.Token

end VolumeFS
