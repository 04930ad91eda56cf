import VolumeFS.Proofs.Contract.Operation

/-!
# The contract on served trees

Most operations reach what they act on by the steps of a tree. Where the steps
serve the contents, making, deleting and renaming are as the contract says; for
a rename this leaves the move to a free place to be shown.
-/

set_option autoImplicit false

namespace VolumeFS

open Volume VolumeFS.Tree

namespace Operation

section Answer

variable {α : Type} {x : ExceptT Fault Run α} {w : World}

theorem outcome_then {result : Except Fault α} {w' : World} (h : outcome x w = (result, w'))
    (f : α → Answer) : outcome (x >>= fun a => pure (f a)) w = (result.map f, w') := by
  rw [outcome_bind, h]
  cases result <;> rfl

/-- An operation is as the contract says if what it does before it answers is. -/
theorem fulfilled_of {φ ρ ω : Type} [FileSystem φ Run ρ ω] [Readable ρ Run] [Writable ω Run]
    {fs : φ} {label : Path → Path} {Sound : World → Prop} {contents : World → Contents}
    {op : Operation} {f : α → Answer} (hrun : op.run fs = x >>= fun a => pure (f a))
    (h : ∃ result w', outcome x w = (result, w') ∧ Sound w' ∧
      op.Meets label (contents w) (Answer.shown (result.map f), contents w')) :
    op.Fulfilled label fs Sound contents w := by
  obtain ⟨result, w', hend, hw', hmeets⟩ := h
  refine ⟨result.map f, w', ?_, hw', hmeets⟩
  rw [hrun, outcome_then hend]

/-- Where an operation begins with bringing in its paths, the first that is refused ends it. -/
theorem refused_of {φ ρ ω : Type} [FileSystem φ Run ρ ω] [Readable ρ Run] [Writable ω Run]
    {fs : φ} {op : Operation} (enter : Path → ExceptT Fault Run Path) (Accepts : Path → Prop)
    (hok : ∀ p ∈ op.paths, Accepts p → ∃ p', outcome (enter p) w = (.ok p', w))
    (hno : ∀ p, ¬ Accepts p → ∃ reason, outcome (enter p) w = (.error (.invalidPath reason), w))
    (hfirst : ∀ p fault, op.paths.head? = some p → outcome (enter p) w = (.error fault, w) →
      outcome (op.run fs) w = (.error fault, w))
    (hsecond : ∀ p q p' fault, op = .rename p q → outcome (enter p) w = (.ok p', w) →
      outcome (enter q) w = (.error fault, w) → outcome (op.run fs) w = (.error fault, w))
    (h : ¬ ∀ p ∈ op.paths, Accepts p) :
    ∃ reason, outcome (op.run fs) w = (.error (.invalidPath reason), w) := by
  have hone : ∀ p, op.paths.head? = some p → ¬ Accepts p →
      ∃ reason, outcome (op.run fs) w = (.error (.invalidPath reason), w) := by
    intro p hp hnot
    obtain ⟨reason, hreason⟩ := hno p hnot
    exact ⟨reason, hfirst p _ hp hreason⟩
  cases op with
  | rename p q =>
    by_cases hp : Accepts p
    · obtain ⟨p', hp'⟩ := hok p (by simp [paths]) hp
      obtain ⟨reason, hreason⟩ := hno q (fun hq => h (by simpa [paths] using ⟨hp, hq⟩))
      exact ⟨reason, hsecond p q p' _ rfl hp' hreason⟩
    · exact hone p rfl hp
  | _ p => exact hone p rfl (fun hp => h (by simpa [paths] using hp))

/-- The order of statuses does not depend on ownership. -/
theorem shown_statuses {label : Path → Path} {l : Contents} {x names : List String}
    {statuses : List Status} (h : statuses.map Status.unowned =
      names.filterMap fun n => (l (x ++ [n])).map (statusAt label (x ++ [n]))) :
    Answer.shown (.ok (.statuses (statuses.mergeSort fun a b => a.path.le b.path))) =
      .ok (.statuses (statusesIn label l x names)) := by
  have hsorted : (statuses.mergeSort fun a b => a.path.le b.path).map Status.unowned =
      (statuses.map Status.unowned).mergeSort fun a b => a.path.le b.path :=
    List.map_mergeSort fun _ _ _ _ => rfl
  unfold Answer.shown Answer.unowned statusesIn
  dsimp only
  rw [hsorted, h]

end Answer

section Target

variable {l : Contents} {p q : Path}

theorem target_concat {x : List String} {n : String} (hx : p.segments = x ++ [n]) :
    target l p q = placeOf Content.kind l n q.segments := by
  unfold target Path.name?
  rw [hx, List.getLast?_concat]

theorem target_cases : target l p q = q.segments ∨
    ∃ n ∈ p.segments, target l p q = q.segments ++ [n] ∧ l q.segments ≠ none := by
  unfold target placeOf
  split
  · split_ifs with hdir
    · obtain ⟨d, hd, -⟩ := isDirectory_iff.1 hdir
      exact .inr ⟨_, List.mem_of_getLast? ‹_›, rfl, by simp [hd]⟩
    · exact .inl rfl
  · exact .inl rfl

theorem target_clear (hq : Clear Content.kind l q.segments) :
    Clear Content.kind l (target l p q) := by
  unfold target placeOf
  split
  · split_ifs with hdir
    · obtain ⟨d, hd, hkind⟩ := isDirectory_iff.1 hdir
      exact hq.child hd hkind _
    · exact hq
  · exact hq

/-- What is moved does not lie above the place where it goes. -/
theorem target_outside (hq : Clear Content.kind l q.segments) {content : Content}
    (hp : l p.segments = some content) (hne : target l p q ≠ p.segments)
    (hallowed : l p.segments = some .directory → p.segments <+: target l p q →
      target l p q = p.segments) : ¬ p.segments <+: target l p q := by
  intro hpre
  obtain ⟨z, hz⟩ := hpre
  have hz0 : z ≠ [] := by
    rintro rfl
    rw [List.append_nil] at hz
    exact hne hz.symm
  have hkind := target_clear (p := p) hq _ z content hz.symm hz0 hp
  rw [Content.kind_directory] at hkind
  subst hkind
  exact hne (hallowed hp ⟨z, hz⟩)

/-- The target of a rename can be found wherever the kinds of places can be told. -/
theorem target_outcome {t : Tree Run} {w : World} (hp : p.segments ≠ [])
    (hn : ∀ n ∈ p.segments, IsName n)
    (hkind : ∀ y, y = q.segments ∨ y = target l p q →
      outcome (t.kind (.ofNames y)) w = (.ok ((l y).map Content.kind), w)) :
    outcome (t.renameTarget (.ofNames p.segments) (.ofNames q.segments)) w =
      (if target l p q = p.segments ∨ l (target l p q) = none
        then .ok (.ofNames (target l p q))
        else .error (.alreadyExists (Path.ofNames (target l p q)).text), w) := by
  rcases List.eq_nil_or_concat p.segments with h0 | ⟨x, n, hx⟩
  · exact absurd h0 hp
  rw [List.concat_eq_append] at hx
  rw [target_concat hx] at hkind ⊢
  rw [hx] at hn ⊢
  exact renameTarget_outcome Content.kind l (hn n (by simp)) hkind

end Target

/-- Above a place that is filled it does not matter what was at the place. -/
theorem update_made (l : Contents) (x : List String) (n : String) (a? : Option Content)
    (content : Content) :
    Function.update (made (Function.update l (x ++ [n]) a?) x) (x ++ [n]) (some content) =
      Function.update (made l x) (x ++ [n]) (some content) := by
  funext y
  by_cases hy : y = x ++ [n]
  · rw [hy, Function.update_self, Function.update_self]
  · rw [Function.update_of_ne hy, Function.update_of_ne hy, made, made, Function.update_of_ne hy]

section Served

variable {t : Tree Run} {contents : World → Contents} {Sound : World → Prop}
  {Fits : List String → Prop} (h : Serves t Content.kind contents Sound Fits) {w : World}
  (hw : Sound w) (label : Path → Path) {p : Path} (hfits : Fits p.segments)
  (hclear : Clear Content.kind (contents w) p.segments)

include h hw hfits hclear

theorem mkdirs_meets : ∃ result w', outcome (t.mkdirs (.ofNames p.segments)) w = (result, w') ∧
    Sound w' ∧ (mkdirs p).Meets label (contents w)
      (Answer.shown (result.map fun _ => .done), contents w') := by
  obtain ⟨data, path, hdata, hend⟩ | ⟨hno, w', hend, hw', hl'⟩ :=
    h.mkdirs_contents hw hfits hclear
  · refine ⟨_, w, hend, hw, ?_⟩
    dsimp only [Meets]
    rw [hdata]
    rfl
  · refine ⟨_, w', hend, hw', ?_⟩
    dsimp only [Meets]
    rw [hl']
    rcases hx : contents w p.segments with _ | _ | _
    · rfl
    · exact absurd hx (hno _)
    · rfl

theorem delete_meets (hroot : p.segments ≠ []) (recursive : Bool) :
    ∃ result w', outcome (t.remove (.ofNames p.segments) recursive) w = (result, w') ∧
      Sound w' ∧ (delete p recursive).Meets label (contents w)
        (Answer.shown (result.map fun _ => .done), contents w') := by
  obtain ⟨hnone, hend⟩ | ⟨d, hd, -, hfull, hrec, hend⟩ | ⟨a, w', ha, hallowed, hend, hw', hl'⟩ :=
    h.remove_outcome hw hroot (h.kind w _ hw hfits hclear) recursive
  · refine ⟨_, w, hend, hw, ?_⟩
    dsimp only [Meets]
    rw [if_pos hnone]
    rfl
  · refine ⟨_, w, hend, hw, ?_⟩
    dsimp only [Meets]
    rw [if_neg (by rw [hd]; simp), if_pos ⟨hrec, hfull⟩]
    rfl
  · refine ⟨_, w', hend, hw', ?_⟩
    have hgone : ¬ (recursive = false ∧ ∃ n, Occupied (contents w) (p.segments ++ [n])) := by
      rintro ⟨hrec, n, b, hb⟩
      rcases hallowed with hyes | hleaf
      · rw [hrec] at hyes
        cases hyes
      · rw [hleaf n] at hb
        cases hb
    dsimp only [Meets]
    rw [if_neg (by rw [ha]; simp), if_neg hgone, hl']
    rfl

theorem isThere_meets : ∃ found, outcome (t.kind (.ofNames p.segments)) w = (.ok found, w) ∧
    (isThere p).Meets label (contents w)
      (Answer.shown (.ok (.truth found.isSome)), contents w) := by
  refine ⟨_, h.kind w _ hw hfits hclear, ?_⟩
  dsimp only [Meets]
  rw [Option.isSome_map]
  rfl

end Served

section Rename

variable {t : Tree Run} {contents : World → Contents} {Sound : World → Prop} {w : World}
  {p q : Path}

/-- A rename is as the contract says if the move to a free place is. -/
theorem rename_meets (hw : Sound w) (label : Path → Path) (hp : p.segments ≠ [])
    (hn : ∀ n ∈ p.segments, IsName n) {content : Content}
    (hthere : contents w p.segments = some content)
    (hkind : ∀ y, y = q.segments ∨ y = target (contents w) p q →
      outcome (t.kind (.ofNames y)) w = (.ok ((contents w y).map Content.kind), w))
    (move : Path → ExceptT Fault Run Unit)
    (hmove : target (contents w) p q ≠ p.segments → contents w (target (contents w) p q) = none →
      ∃ result w', outcome (move (.ofNames (target (contents w) p q))) w = (result, w') ∧
        Sound w' ∧ (Answer.shown (result.map fun _ => .done), contents w') =
          if contents w (target (contents w) p q).dropLast = none
            then (.error "NotFound", contents w)
            else (.ok .done, moved (contents w) p.segments (target (contents w) p q))) :
    ∃ result w', outcome (do
        let target ← t.renameTarget (.ofNames p.segments) (.ofNames q.segments)
        if target = .ofNames p.segments then return else move target) w = (result, w') ∧
      Sound w' ∧ (rename p q).Meets label (contents w)
        (Answer.shown (result.map fun _ => .done), contents w') := by
  have htarget := target_outcome hp hn hkind
  dsimp only [Meets]
  rw [if_neg (by rw [hthere]; simp)]
  by_cases hsame : target (contents w) p q = p.segments
  · rw [if_pos (.inl hsame)] at htarget
    refine ⟨.ok (), w, ?_, hw, ?_⟩
    · rw [outcome_bind_ok htarget, if_pos (by rw [hsame])]
      rfl
    · rw [if_pos hsame]
      rfl
  rw [if_neg hsame]
  by_cases hfree : contents w (target (contents w) p q) = none
  · rw [if_pos (.inr hfree)] at htarget
    obtain ⟨result, w', hend, hw', hmeets⟩ := hmove hsame hfree
    refine ⟨result, w', ?_, hw', ?_⟩
    · rw [outcome_bind_ok htarget, if_neg (fun he => hsame (Path.ofNames_injective he))]
      exact hend
    · rw [if_neg (fun hne => hne hfree)]
      exact hmeets
  · rw [if_neg (by rintro (h | h); exacts [hsame h, hfree h])] at htarget
    refine ⟨_, w, outcome_bind_error htarget _, hw, ?_⟩
    rw [if_pos hfree]
    rfl

end Rename

end Operation

end VolumeFS
