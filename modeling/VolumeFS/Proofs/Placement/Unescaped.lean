import VolumeFS.Proofs.Placement.Replica
import VolumeFS.Proofs.Placement.Translators

/-!
# Fields that hold a delimiter

Nothing in the tag of a brick is escaped, and each field ends at the first
character that ends such a field. So a brick is read as it is written exactly
if neither its directory nor its path holds the character that ends it. The
reader does not notice otherwise: a path is cut off at its first closing angle
bracket, and the file that is left is taken for the brick file.
-/

set_option autoImplicit false

namespace VolumeFS

def Brick.attribute (b : Brick) : String :=
  s!"(<DISTRIBUTE:d> <POSIX({b.exportDir}):{b.host}:{b.path}>)"

/-- The text is read as this one brick, and on its host, and there only, a quick read takes the
brick file for the file. -/
structure Placement.ReadAs (text : String) (b : Brick) : Prop where
  groups : ∃ p, parse text = .ok p ∧ p.groups = [[b]] ∧ p.stripeSize = none
  quick : ∀ {source : String → ExceptT Fault Run (Option String)} {path : String} {w w' : World},
    outcome (source path) w = (.ok (some text), w') → ∀ own length, ∃ hints,
      outcome ((Oracle.ofAttribute source own).quickRead path 0 length) w =
        (.ok (some hints), w') ∧
      ∀ here, Hint.localReplica? here hints =
        if Host.isSame b.host here then some b.path else none

namespace Placement

open Token

variable {b : Brick}

theorem localReplica?_single (here : String) (offset length : UInt64) :
    Hint.localReplica? here (Hint.byOffset [⟨offset, length, [b]⟩]) =
      if Host.isSame b.host here then some b.path else none := by
  cases h : Host.isSame b.host here <;>
    simp [Hint.byOffset, Hint.insert, Hint.localReplica?, Hint.onHost?, h]

theorem readAs_of_groups {text : String} {p : Placement} (hp : parse text = .ok p)
    (hgroups : p.groups = [[b]]) (hsize : p.stripeSize = none) : ReadAs text b where
  groups := ⟨p, hp, hgroups, hsize⟩
  quick hread own length := by
    have hchunk : p.chunkSize? = none := chunkSize?_eq_none.mpr (.inl hsize)
    have hhints : p.hints 0 length = [⟨0, length, [b]⟩] := by
      rw [hints_whole hchunk, hgroups]
      rfl
    refine ⟨_, Oracle.quickRead_outcome hp hread 0 length, fun here => ?_⟩
    rw [hhints]
    exact localReplica?_single here 0 length

section Untagged

variable {text : List Char}

/-- Without a tag there are parentheses only. -/
theorem scan_untagged (h : '<' ∉ text) : ∀ t ∈ scan text, t = .opening ∨ t = .closing := by
  have hscan := scan_scanned text
  generalize scan text = tokens at hscan
  induction hscan with
  | done => simp
  | word hword _ ih =>
    have hrest := ih fun hm => h (List.mem_append_right _ hm)
    cases hword with
    | opening => simpa using hrest
    | closing => simpa using hrest
    | _ => exact absurd (List.mem_append_left _ List.mem_cons_self) h
  | other _ _ ih =>
    apply ih
    exact fun hm => h (List.mem_cons_of_mem _ hm)

theorem bricksOf_untagged (h : '<' ∉ text) : bricksOf (scan text) = [] := by
  apply List.filterMap_eq_nil_iff.mpr
  intro t ht
  rcases scan_untagged h t ht with rfl | rfl <;> rfl

/-- Parentheses change the depth only, as long as no group is being filled. -/
theorem Assembly.foldl_parentheses {tokens : List Token}
    (h : ∀ t ∈ tokens, t = .opening ∨ t = .closing) (depth : Nat) (found : List (List Brick))
    (size : Option UInt64) :
    ∃ depth', tokens.foldl step ⟨depth, none, found, size⟩ = ⟨depth', none, found, size⟩ := by
  induction tokens generalizing depth with
  | nil => exact ⟨depth, rfl⟩
  | cons t tokens ih =>
    obtain ⟨ht, htokens⟩ := List.forall_mem_cons.mp h
    rcases ht with rfl | rfl
    · exact ih htokens (depth + 1)
    · exact ih htokens (depth - 1)

end Untagged

section Attribute

theorem attribute_toList (b : Brick) : b.attribute.toList =
    '(' :: (Translator.tag "DISTRIBUTE" ['d'] ++ ([' '] ++ (b.tag ++ [')']))) := by
  have hopening : "(<DISTRIBUTE:d> <POSIX(".toList =
    '(' :: (Translator.tag "DISTRIBUTE" ['d'] ++ ([' '] ++ '<' :: "POSIX(".toList)) := rfl
  have hexport : "):".toList = [')', ':'] := rfl
  have hhost : ":".toList = [':'] := rfl
  have hclosing : ">)".toList = ['>', ')'] := rfl
  show ("(<DISTRIBUTE:d> <POSIX(" ++ b.exportDir ++ "):" ++ b.host ++ ":" ++ b.path ++
    ">)").toList = _
  simp only [String.toList_append, hopening, hexport, hhost, hclosing, Brick.tag, Brick.fields,
    List.append_assoc, List.cons_append, List.nil_append]

/-- What stands around the tag of the brick gives no group and no size. -/
theorem scan_attribute (b : Brick) :
    scan b.attribute.toList = .opening :: .distribute :: scan (b.tag ++ [')']) := by
  have htag : Word (Translator.tag "DISTRIBUTE" ['d']) .distribute := .distribute (by decide)
  have hspace : ∀ c ∈ [' '], Idle c := by simp [Idle]
  rw [attribute_toList, ← scan_idle hspace (b.tag ++ [')']), ← scan_word htag]
  exact scan_word .opening _

/-- With no tag after that of a brick, the attribute is read as this brick. -/
theorem readAs_of_scan {other : Brick} {rest : List Char}
    (hscan : scan (b.tag ++ [')']) = .brick other :: scan rest) (hrest : '<' ∉ rest) :
    ReadAs b.attribute other := by
  obtain ⟨depth, hend⟩ :=
    Assembly.foldl_parentheses (scan_untagged hrest) 1 [[other]] none
  have hfold : (scan b.attribute.toList).foldl Assembly.step .empty =
      ⟨depth, none, [[other]], none⟩ := by
    rw [scan_attribute, hscan]
    exact hend
  have hfound : ofTokens? (scan b.attribute.toList) =
      some ⟨[[other]], none, List.cons_ne_nil _ _⟩ := by
    unfold ofTokens?
    simp [hfold, Assembly.close]
  exact readAs_of_groups (parse_found hfound) rfl rfl

/-- Only a brick without delimiters can be what a text is read as. -/
theorem delimited_of_readAs {text : String} (h : ReadAs text b) : b.Delimited := by
  obtain ⟨p, hp, hgroups, -⟩ := h.groups
  obtain ⟨hnone, hsome⟩ := ofTokens?_grouped (scan text.toList)
  by_cases hbricks : bricksOf (scan text.toList) = []
  · rw [parse, hnone hbricks] at hp
    cases hp
  · obtain ⟨q, hq, hgrouped⟩ := hsome hbricks
    rw [parse_found hq] at hp
    cases hp
    have hnamed : b ∈ bricksOf (scan text.toList) := by
      rw [← hgrouped.flatten, hgroups]
      exact List.mem_singleton_self b
    obtain ⟨t, ht, hb⟩ := List.mem_filterMap.mp hnamed
    cases t with
    | brick other =>
      cases hb
      exact delimited_of_mem_scan ht
    | _ => cases hb

/-- A path is read up to its first closing angle bracket, and what follows is read as if it stood
after the tag. -/
theorem scan_cut (hhost : b.host.toList ≠ [] ∧ ':' ∉ b.host.toList ∧ '>' ∉ b.host.toList)
    (hexport : ')' ∉ b.exportDir.toList) {cut rest : List Char}
    (hpath : b.path.toList = cut ++ '>' :: rest) (hcut : '>' ∉ cut) :
    scan (b.tag ++ [')']) =
      .brick { b with path := String.ofList cut } :: scan (rest ++ ['>', ')']) := by
  have hb : { b with path := String.ofList cut }.Delimited :=
    ⟨hexport, hhost, by simpa using hcut⟩
  rw [← scan_word (.brick hb)]
  simp [Brick.tag, Brick.fields, hpath]

/-- Where a parenthesis in the directory is not followed by a colon, there is no tag. -/
theorem scan_unreadable {dir tail : List Char} (hexport : b.exportDir.toList = dir ++ ')' :: tail)
    (hdir : ')' ∉ dir) (htail : tail.head? ≠ some ':') :
    scan (b.tag ++ [')']) = scan ("POSIX(".toList ++ (b.fields ++ [')'])) := by
  have hbrick : brick? (b.fields ++ [')']) = none := by
    have hup : upTo? ')' (b.fields ++ [')']) = some (dir, tail ++ ')' :: ':' :: (b.host.toList ++
        ':' :: (b.path.toList ++ ['>'] ++ [')']))) := by
      apply upTo?_iff.mpr
      exact ⟨by simp [Brick.fields, hexport], hdir⟩
    unfold brick?
    rw [hup]
    cases tail with
    | nil => rfl
    | cons c tail =>
      have hc : c ≠ ':' := by simpa using htail
      simp [hc]
  apply scan_none
  show head? ('<' :: ("POSIX(".toList ++ (b.fields ++ [')']))) = none
  rw [head?_brick, hbrick]
  rfl

end Attribute

/-- A brick is read as it is written exactly if neither of its free fields holds the character that
ends it. A path that holds a closing angle bracket is cut off at the first one, and what is left is
the path of the first brick, or of the only one where no tag stands in the rest. A directory with a
closing parenthesis ends there, so that without a colon after it there is no brick. -/
theorem attribute_read
    (hhost : b.host.toList ≠ [] ∧ ':' ∉ b.host.toList ∧ '>' ∉ b.host.toList) :
    (ReadAs b.attribute b ↔ ')' ∉ b.exportDir.toList ∧ '>' ∉ b.path.toList) ∧
    (')' ∉ b.exportDir.toList →
      ∀ cut rest, b.path.toList = cut ++ '>' :: rest → '>' ∉ cut →
        (∃ p others, parse b.attribute = .ok p ∧
          p.groups.flatten = { b with path := String.ofList cut } :: others) ∧
        ('<' ∉ rest → ReadAs b.attribute { b with path := String.ofList cut })) ∧
    (∀ dir tail, b.exportDir.toList = dir ++ ')' :: tail → ')' ∉ dir → tail.head? ≠ some ':' →
      '<' ∉ b.fields →
      parse b.attribute = .error (.backend s!"no bricks in pathinfo: {b.attribute}")) := by
  obtain ⟨hnone, hsome⟩ := ofTokens?_grouped (scan b.attribute.toList)
  refine ⟨⟨fun h => ?_, fun ⟨hexport, hpath⟩ => ?_⟩, ?_, ?_⟩
  · have hb := delimited_of_readAs h
    exact ⟨hb.exportDir, hb.path⟩
  · have hb : b.Delimited := ⟨hexport, hhost, hpath⟩
    apply readAs_of_scan (scan_word (.brick hb) [')'])
    decide
  · intro hexport cut rest hpath hcut
    have hscan := scan_cut hhost hexport hpath hcut
    constructor
    · have hbricks : bricksOf (scan b.attribute.toList) =
          { b with path := String.ofList cut } :: bricksOf (scan (rest ++ ['>', ')'])) := by
        rw [scan_attribute, hscan]
        rfl
      obtain ⟨p, hp, hgrouped⟩ := hsome (by rw [hbricks]; exact List.cons_ne_nil _ _)
      exact ⟨p, _, parse_found hp, hgrouped.flatten.trans hbricks⟩
    · intro hrest
      apply readAs_of_scan hscan
      simpa using hrest
  · intro dir tail hexport hdir htail huntagged
    have hbricks : bricksOf (scan b.attribute.toList) = [] := by
      rw [scan_attribute, scan_unreadable hexport hdir htail]
      apply bricksOf_untagged
      simpa using huntagged
    rw [parse, hnone hbricks]

def arrow : Brick := ⟨"h1", "/b1", "/b1/a->b"⟩

/-- The attribute is read as that of the file whose name ends before the head of the arrow. -/
theorem arrow_cut :
    ReadAs arrow.attribute ⟨"h1", "/b1", "/b1/a-"⟩ ∧ ¬ ReadAs arrow.attribute arrow := by
  obtain ⟨hiff, hcut, -⟩ := attribute_read (b := arrow) (by decide)
  refine ⟨?_, fun h => ?_⟩
  · exact (hcut (by decide) "/b1/a-".toList "b".toList rfl (by decide)).2 (by decide)
  · exact absurd (hiff.mp h).2 (by decide)

/-- On the host of the brick that file is opened, whose name is the beginning of the right one. -/
theorem arrow_taken_for_other :
    arrow.attribute = "(<DISTRIBUTE:d> <POSIX(/b1):h1:/b1/a->b>)" ∧
    ∃ p, parse arrow.attribute = .ok p ∧ p.groups ≠ [[arrow]] ∧
      p.groups = [[⟨"h1", "/b1", "/b1/a-"⟩]] ∧
      Hint.localReplica? "h1" (Hint.byOffset (p.hints 0 10)) = some "/b1/a-" ∧
      "/b1/a-".toList <+: arrow.path.toList := by
  refine ⟨by decide +kernel, ⟨[[⟨"h1", "/b1", "/b1/a-"⟩]], none, List.cons_ne_nil _ _⟩, ?_⟩
  refine ⟨?_, by decide, rfl, by decide +kernel, by decide⟩
  apply parse_found
  decide +kernel

end Placement

end VolumeFS
