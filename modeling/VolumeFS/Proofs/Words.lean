import Mathlib.Data.List.Basic
import Mathlib.Data.List.TakeDrop
import Mathlib.Data.List.TakeWhile
import VolumeFS.Text.Blank
import VolumeFS.Text.Split

/-!
# Words and the blanks around them

A text is words with blanks around and between them. There is one way to see it
so, and `words` finds it. What ends the first line is a line feed, perhaps with
a carriage return before it; as that is a blank it changes no word. Trimming
takes blanks away and nothing else.
-/

set_option autoImplicit false

namespace VolumeFS.Text

def IsGap (cs : List Char) : Prop := ∀ c ∈ cs, isBlank c = true

structure IsWord (cs : List Char) : Prop where
  ne_nil : cs ≠ []
  solid : ∀ c ∈ cs, isBlank c = false

def Breaks (cs : List Char) : Prop := ∀ c, cs.head? = some c → isBlank c = true

inductive Worded : List Char → List (List Char) → Prop
  | gap {gap : List Char} : IsGap gap → Worded gap []
  | word {gap word rest : List Char} {ws : List (List Char)} : IsGap gap → IsWord word →
      Breaks rest → Worded rest ws → Worded (gap ++ (word ++ rest)) (word :: ws)

theorem Worded.of_word {word rest : List Char} {ws : List (List Char)} (hword : IsWord word)
    (hbreaks : Breaks rest) (hrest : Worded rest ws) : Worded (word ++ rest) (word :: ws) := by
  have hgap : IsGap [] := nofun
  change Worded ([] ++ (word ++ rest)) (word :: ws)
  exact .word hgap hword hbreaks hrest

theorem Worded.cons_blank {c : Char} (hc : isBlank c = true) {cs : List Char}
    {ws : List (List Char)} (h : Worded cs ws) : Worded (c :: cs) ws := by
  have hgap : ∀ {gap : List Char}, IsGap gap → IsGap (c :: gap) := fun hgap =>
    List.forall_mem_cons.2 ⟨hc, hgap⟩
  cases h with
  | gap h => exact .gap (hgap h)
  | word h hword hbreaks hrest => exact .word (hgap h) hword hbreaks hrest

/-- The run that is being read goes in front of what is to come. -/
theorem wordsFrom_worded (cs run : List Char) (hrun : ∀ c ∈ run, isBlank c = false) :
    Worded (run.reverse ++ cs) (wordsFrom run cs) := by
  have hword : ∀ {run : List Char}, run ≠ [] → (∀ c ∈ run, isBlank c = false) →
      IsWord run.reverse := fun hne hsolid =>
    ⟨by simpa using hne, by simpa using hsolid⟩
  induction cs generalizing run with
  | nil =>
    cases run with
    | nil => exact .gap nofun
    | cons r run => exact .of_word (hword (by simp) hrun) nofun (.gap nofun)
  | cons c cs ih =>
    unfold wordsFrom
    by_cases hc : isBlank c = true
    · have hrest : Worded (c :: cs) (wordsFrom [] cs) := (ih [] nofun).cons_blank hc
      rw [if_pos hc]
      cases run with
      | nil => exact hrest
      | cons r run =>
        apply Worded.of_word (hword (by simp) hrun) _ hrest
        rintro _ ⟨⟩
        exact hc
    · rw [if_neg hc]
      have hsolid := ih (c :: run) (List.forall_mem_cons.2 ⟨by simpa using hc, hrun⟩)
      rwa [List.reverse_cons, List.append_assoc] at hsolid

section Reading

theorem wordsFrom_gap {gap : List Char} (hgap : IsGap gap) (cs : List Char) :
    wordsFrom [] (gap ++ cs) = wordsFrom [] cs := by
  induction gap with
  | nil => rfl
  | cons c gap ih =>
    obtain ⟨hc, hgap⟩ := List.forall_mem_cons.1 hgap
    rw [List.cons_append, wordsFrom, if_pos hc]
    exact ih hgap

theorem wordsFrom_solid {word : List Char} (hword : ∀ c ∈ word, isBlank c = false)
    (run cs : List Char) : wordsFrom run (word ++ cs) = wordsFrom (word.reverse ++ run) cs := by
  induction word generalizing run with
  | nil => rfl
  | cons c word ih =>
    obtain ⟨hc, hword⟩ := List.forall_mem_cons.1 hword
    rw [List.cons_append, wordsFrom, if_neg (by simp [hc]), ih hword, List.reverse_cons,
      List.append_assoc]
    rfl

theorem wordsFrom_breaks {rest : List Char} (hrest : Breaks rest) {run : List Char}
    (hrun : run ≠ []) : wordsFrom run rest = run.reverse :: wordsFrom [] rest := by
  cases rest with
  | nil => simp [wordsFrom, hrun]
  | cons c rest =>
    have hc := hrest c rfl
    simp [wordsFrom, hc, hrun]

/-- There is one way to see a text as words. -/
theorem words_eq_iff (cs : List Char) (ws : List (List Char)) : words cs = ws ↔ Worded cs ws := by
  constructor
  · rintro rfl
    exact wordsFrom_worded cs [] nofun
  · intro h
    unfold words
    induction h with
    | gap hgap => simpa [wordsFrom] using wordsFrom_gap hgap []
    | word hgap hword hbreaks _ ih =>
      rw [wordsFrom_gap hgap, wordsFrom_solid hword.solid, List.append_nil,
        wordsFrom_breaks hbreaks (by simpa using hword.ne_nil), ih, List.reverse_reverse]

/-- A blank at the end changes no word. -/
theorem wordsFrom_concat {c : Char} (hc : isBlank c = true) (cs run : List Char) :
    wordsFrom run (cs ++ [c]) = wordsFrom run cs := by
  induction cs generalizing run with
  | nil => simp [wordsFrom, hc]
  | cons d cs ih => simp only [List.cons_append, wordsFrom, ih]

theorem words_firstLine (cs : List Char) :
    words (firstLine cs) = words (cs.takeWhile (· ≠ '\n')) := by
  unfold firstLine
  rw [List.span_eq_takeWhile_dropWhile]
  generalize cs.takeWhile (· ≠ '\n') = line
  split
  · rename_i heq
    rw [(Prod.mk.inj heq).1]
  · rename_i heq
    rw [← (Prod.mk.inj heq).1]
    split
    · rename_i hlast
      rw [words, words, ← wordsFrom_concat (by decide : isBlank '\r' = true),
        List.dropLast_append_getLast? _ hlast]
    · rfl

end Reading

section Trimming

variable {c : Char} (hc : isBlank c = false)

include hc

theorem mem_dropWhile {cs : List Char} (h : c ∈ cs) : c ∈ cs.dropWhile isBlank := by
  have hparts : cs.takeWhile isBlank ++ cs.dropWhile isBlank = cs :=
    List.takeWhile_append_dropWhile
  rw [← hparts] at h
  obtain h | h := List.mem_append.1 h
  · have hblank := List.mem_takeWhile_imp h
    rw [hc] at hblank
    cases hblank
  · exact h

theorem mem_trimChars {cs : List Char} (h : c ∈ cs) : c ∈ trimChars cs := by
  apply List.mem_reverse.2
  apply mem_dropWhile hc
  apply List.mem_reverse.2
  exact mem_dropWhile hc h

omit hc

theorem trim_gap {text : String} (h : IsGap text.toList) : trim text = "" := by
  have hdrop : text.toList.dropWhile isBlank = [] := List.dropWhile_eq_nil_iff.2 h
  rw [trim, trimChars, hdrop]
  rfl

theorem isGap_trim_iff (text : String) : IsGap (trim text).toList ↔ IsGap text.toList := by
  constructor
  · intro h c hc
    by_contra hsolid
    have hsolid : isBlank c = false := by simpa using hsolid
    have hblank := h c (by simpa [trim] using mem_trimChars hsolid hc)
    rw [hsolid] at hblank
    cases hblank
  · intro h
    rw [trim_gap h]
    exact nofun

end Trimming

end VolumeFS.Text
