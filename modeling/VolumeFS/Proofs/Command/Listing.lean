import VolumeFS.Proofs.Command.Answer
import VolumeFS.Proofs.Permission
import VolumeFS.Proofs.Words

/-!
# What a listing tells of a file

The first line of a listing begins with the permission of the file, the number
of its links, its owner and its group. Nobody asks if the first word is a
permission: if it is long enough it stands for one, whatever it is.
-/

set_option autoImplicit false

namespace VolumeFS

namespace Shell

/-- Nothing is known of the file, and nothing more is to be found out. -/
def nothingKnown : Ownership := ⟨true, none, none, none⟩

/-- What the words of the first line tell to one who takes a text for a permission if it means that
to him. Of the first word ten characters count. -/
inductive Told (means : List Char → Permission → Prop) : List (List Char) → Ownership → Prop
  | short {ws : List (List Char)} : ws.length < 4 → Told means ws nothingKnown
  | full {bits links owner group : List Char} {rest : List (List Char)}
      {permission : Option Permission} :
      (∀ p, permission = some p ↔ means (bits.take 10) p) →
      Told means (bits :: links :: owner :: group :: rest)
        ⟨true, some (String.ofList owner), some (String.ofList group), permission⟩

def Lists (listing : String) (ws : List (List Char)) : Prop :=
  Text.Worded (listing.toList.takeWhile (· ≠ '\n')) ws

def Tells (means : List Char → Permission → Prop) (listing : String) (o : Ownership) : Prop :=
  ∃ ws, Lists listing ws ∧ Told means ws o

def takenFor (ws : List (List Char)) : Ownership :=
  match ws.take 4 with
  | [bits, _, owner, group] =>
    ⟨true, some (String.ofList owner), some (String.ofList group),
      (Permission.ofSymbolic (String.ofList (bits.take 10))).toOption⟩
  | _ => nothingKnown

theorem ofSymbolic_some_iff (text : List Char) (p : Permission) :
    (Permission.ofSymbolic (String.ofList text)).toOption = some p ↔
      Permission.StandsFor text p := by
  have h := Permission.ofSymbolic_eq_ok_iff (String.ofList text) p
  rw [String.toList_ofList] at h
  rw [← h]
  cases Permission.ofSymbolic (String.ofList text) <;> simp [Except.toOption]

theorem takenFor_eq_iff (ws : List (List Char)) (o : Ownership) :
    takenFor ws = o ↔ Told Permission.StandsFor ws o := by
  constructor
  · rintro rfl
    match ws with
    | bits :: _ :: _ :: _ :: _ => exact .full fun p => ofSymbolic_some_iff (bits.take 10) p
    | [] | [_] | [_, _] | [_, _, _] => exact .short (by simp)
  · intro h
    cases h with
    | short hlength =>
      match ws, hlength with
      | [], _ | [_], _ | [_, _], _ | [_, _, _], _ => rfl
    | @full bits _ _ _ _ permission hp =>
      have hread : (Permission.ofSymbolic (String.ofList (bits.take 10))).toOption =
          permission := by
        ext p
        rw [ofSymbolic_some_iff, hp]
      exact congrArg (Ownership.mk true _ _) hread

theorem ownershipOf_eq_iff (listing : String) (o : Ownership) :
    ownershipOf listing = o ↔ Tells Permission.StandsFor listing o := by
  have hwords : ownershipOf listing =
      takenFor (Text.words (listing.toList.takeWhile (· ≠ '\n'))) := by
    rw [← Text.words_firstLine]
    rfl
  rw [hwords, takenFor_eq_iff]
  constructor
  · intro h
    exact ⟨_, (Text.words_eq_iff _ _).1 rfl, h⟩
  · rintro ⟨ws, hws, h⟩
    rwa [(Text.words_eq_iff _ _).2 hws]

section Asked

variable {σ : Type} [Commands (StateM σ)] (path : String) (s : σ)

/-- What is reported of a file is what the listing tells, or nothing if there is none. -/
theorem ownership_eq_ok_iff (o : Ownership) :
    (ending (ownership path) s).1 = .ok o ↔
      ∃ output, (asked "ls" ["-ld", path] s).1 = .ok output ∧
        (output.code = some 0 ∧ Tells Permission.StandsFor output.stdout o ∨
          output.code = some 1 ∧ o = nothingKnown) := by
  have hending : (ending (ownership path) s).1 = .ok o ↔
      ∃ text, textOf "ls" ["-ld", path] [1] (asked "ls" ["-ld", path] s).1 = .ok text ∧
        ownershipOf text = o := by
    unfold ownership
    rw [ending_bind, exec_ending]
    cases textOf "ls" ["-ld", path] [1] (asked "ls" ["-ld", path] s).1 with
    | error e => exact ⟨nofun, nofun⟩
    | ok text => exact ⟨fun h => ⟨text, rfl, Except.ok.inj h⟩, by rintro ⟨_, ⟨⟩, rfl⟩; rfl⟩
  rw [hending]
  constructor
  · rintro ⟨text, htext, rfl⟩
    obtain ⟨output, hanswer, ⟨hcode, rfl⟩ | ⟨-, ⟨code, hmem, hcode⟩, rfl⟩⟩ :=
      (textOf_eq_ok_iff ..).1 htext
    · exact ⟨output, hanswer, .inl ⟨hcode, (ownershipOf_eq_iff _ _).1 rfl⟩⟩
    · obtain rfl := List.mem_singleton.1 hmem
      exact ⟨output, hanswer, .inr ⟨hcode, rfl⟩⟩
  · rintro ⟨output, hanswer, ⟨hcode, htells⟩ | ⟨hcode, rfl⟩⟩
    · exact ⟨output.stdout, (textOf_eq_ok_iff ..).2 ⟨output, hanswer, .inl ⟨hcode, rfl⟩⟩,
        (ownershipOf_eq_iff _ _).2 htells⟩
    · have hzero : output.code ≠ some 0 := by
        rw [hcode]
        exact nofun
      exact ⟨"", (textOf_eq_ok_iff ..).2
        ⟨output, hanswer, .inr ⟨hzero, ⟨1, List.mem_singleton.2 rfl, hcode⟩, rfl⟩⟩, rfl⟩

end Asked

/-- A line has one reading as words. -/
theorem Lists.unique {listing : String} {ws ws' : List (List Char)} (h : Lists listing ws)
    (h' : Lists listing ws') : ws = ws' :=
  ((Text.words_eq_iff _ _).2 h).symm.trans ((Text.words_eq_iff _ _).2 h')

/-- A listing is misread just if its first word is no symbolic form and yet long enough to be taken
for one. -/
theorem tells_iff_shown (listing : String) :
    (∀ o, Tells Permission.StandsFor listing o ↔ Tells Permission.Shown listing o) ↔
      ∀ bits links owner group rest, Lists listing (bits :: links :: owner :: group :: rest) →
        Permission.IsProper (bits.take 10) := by
  constructor
  · intro h bits links owner group rest hlists
    rw [← Permission.standsFor_iff_shown]
    intro p
    have htells : Tells Permission.StandsFor listing
        (takenFor (bits :: links :: owner :: group :: rest)) :=
      ⟨_, hlists, (takenFor_eq_iff _ _).1 rfl⟩
    obtain ⟨ws, hlists', htold⟩ := (h _).1 htells
    obtain rfl := hlists.unique hlists'
    cases htold with
    | full hshown => rw [← hshown, ← ofSymbolic_some_iff]
  · intro h o
    have hfour (bits links owner group : List Char) (rest : List (List Char))
        (hlists : Lists listing (bits :: links :: owner :: group :: rest)) :=
      (Permission.standsFor_iff_shown _).2 (h bits links owner group rest hlists)
    constructor
    · rintro ⟨ws, hlists, hshort | hfull⟩
      · exact ⟨ws, hlists, .short hshort⟩
      · exact ⟨_, hlists, .full fun p => (hfull p).trans (hfour _ _ _ _ _ hlists p)⟩
    · rintro ⟨ws, hlists, hshort | hfull⟩
      · exact ⟨ws, hlists, .short hshort⟩
      · exact ⟨_, hlists, .full fun p => (hfull p).trans (hfour _ _ _ _ _ hlists p).symm⟩

/-- A text is read as a permission exactly if nine of its characters are left behind the type of the
file, whatever they are, and then it is the one that shows what of them belongs where it stands. The
text shows what it is read as just if it is proper. What is reported of a file is what a listing
tells in this way, and it is what the listing shows just if its first word is proper too. -/
theorem permission_texts (text : String) {σ : Type} [Commands (StateM σ)] (path : String) (s : σ)
    (listing : String) :
    (∀ p, Permission.ofSymbolic text = .ok p ↔ Permission.StandsFor text.toList p) ∧
    ((∃ p, Permission.StandsFor text.toList p) ↔
      text.toList.length = 9 ∨ text.toList.length = 10) ∧
    (text.toList.length ≠ 9 ∧ text.toList.length ≠ 10 →
      Permission.ofSymbolic text =
        .error (.invalidArgument s!"bad permission string: {text}")) ∧
    ((∀ p, Permission.ofSymbolic text = .ok p ↔ Permission.Shown text.toList p) ↔
      Permission.IsProper text.toList) ∧
    (∀ o, (ending (ownership path) s).1 = .ok o ↔
      ∃ output, (asked "ls" ["-ld", path] s).1 = .ok output ∧
        (output.code = some 0 ∧ Tells Permission.StandsFor output.stdout o ∨
          output.code = some 1 ∧ o = nothingKnown)) ∧
    ((∀ o, Tells Permission.StandsFor listing o ↔ Tells Permission.Shown listing o) ↔
      ∀ bits links owner group rest, Lists listing (bits :: links :: owner :: group :: rest) →
        Permission.IsProper (bits.take 10)) := by
  have hread := Permission.ofSymbolic_eq_ok_iff text
  refine ⟨hread, Permission.exists_standsFor_iff text.toList, Permission.ofSymbolic_refuses, ?_,
    ownership_eq_ok_iff path s, tells_iff_shown listing⟩
  simp only [hread]
  exact Permission.standsFor_iff_shown text.toList

/-- A word that is no permission is read as one, also where a line of another kind begins with
it. -/
theorem stray_line_taken :
    ¬ Permission.IsProper "Permission".toList ∧
      Permission.ofSymbolic "Permission" = .ok ⟨0o2010⟩ ∧
      ownershipOf "Permission denied for amy\n" =
        ⟨true, some "for", some "amy", some ⟨0o2010⟩⟩ := by
  refine ⟨?_, rfl, by decide⟩
  intro hproper
  have hbare : Permission.Bare "Permission".toList "ermission".toList :=
    ⟨by decide, .inr ⟨'P', by decide⟩⟩
  have htidied := (Permission.tidied_eq_self_iff hbare.1).2 (hproper _ hbare)
  revert htidied
  decide

end Shell

end VolumeFS
