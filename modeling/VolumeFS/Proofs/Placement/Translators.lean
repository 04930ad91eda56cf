import Mathlib.Data.List.Basic
import VolumeFS.Proofs.Placement.Groups
import VolumeFS.Text.Blank

/-!
# Trees of translators

A volume serves a file through a tree of translators: some distribute files or
stripes among others, some keep copies on several bricks, and the leaves are
bricks. Written in parentheses and tags, with any blanks between them, such a
tree is read as the groups of copies in it: each complete tree leaves the depth
of parentheses as it was and adds its own groups, whatever follows it.
-/

set_option autoImplicit false

namespace VolumeFS

inductive Translator where
  | brick (b : Brick)
  /-- Keeps the same on every brick. -/
  | replicate (name : String) (bricks : List Brick)
  /-- Cuts files into stripes of this size. -/
  | stripe (name : String) (size : UInt64) (children : List Translator)
  | distribute (name : String) (children : List Translator)

namespace Translator

section Reading

def bricks : List Translator → List Brick
  | [] => []
  | .brick b :: row => b :: bricks row
  | .replicate _ copies :: row => copies ++ bricks row
  | .stripe _ _ children :: row => bricks children ++ bricks row
  | .distribute _ children :: row => bricks children ++ bricks row

/-- The groups of a row of trees, from left to right: the copies of each translator that has any,
and each brick that is not one of them by itself. -/
def groups : List Translator → List (List Brick)
  | [] => []
  | .brick b :: row => [b] :: groups row
  | .replicate _ copies :: row => (if copies = [] then [] else [copies]) ++ groups row
  | .stripe _ _ children :: row => groups children ++ groups row
  | .distribute _ children :: row => groups children ++ groups row

def sizes : List Translator → List UInt64
  | [] => []
  | .brick _ :: row => sizes row
  | .replicate _ _ :: row => sizes row
  | .stripe _ size children :: row => size :: (sizes children ++ sizes row)
  | .distribute _ children :: row => sizes children ++ sizes row

theorem groups_flatten (row : List Translator) : (groups row).flatten = bricks row := by
  induction row using groups.induct with
  | case1 => simp [groups, bricks]
  | case2 b row ih => simp [groups, bricks, ih]
  | case3 name copies row ih => by_cases h : copies = [] <;> simp [groups, bricks, ih, h]
  | case4 name size children row ihc ih => simp [groups, bricks, ihc, ih]
  | case5 name children row ihc ih => simp [groups, bricks, ihc, ih]

theorem groups_filled (row : List Translator) : ∀ group ∈ groups row, group ≠ [] := by
  induction row using groups.induct with
  | case1 => simp [groups]
  | case2 b row ih => simpa [groups] using ih
  | case3 name copies row ih =>
    by_cases h : copies = []
    · simpa [groups, h] using ih
    · simpa [groups, h] using ih
  | case4 name size children row ihc ih =>
    simpa [groups, or_imp, forall_and] using ⟨ihc, ih⟩
  | case5 name children row ihc ih =>
    simpa [groups, or_imp, forall_and] using ⟨ihc, ih⟩

end Reading

section Writing

def Gap (text : List Char) : Prop := ∀ c ∈ text, Text.isBlank c = true

instance (text : List Char) : Decidable (Gap text) :=
  decidable_of_iff (text.all Text.isBlank = true) List.all_eq_true

def tag (kind : String) (fields : List Char) : List Char :=
  '<' :: (kind.toList ++ ((':' :: fields) ++ ['>']))

structure Numeral (size : UInt64) (digits : List Char) : Prop where
  some : digits ≠ []
  decimal : ∀ c ∈ digits, c.isDigit = true
  value : Text.decimalValue 0 digits = size.toNat

/-- How the bricks of a translator that keeps copies are written, each of them plainly or in
parentheses of its own. -/
inductive Copies : List Brick → List Char → Prop
  | done {gap : List Char} : Gap gap → Copies [] gap
  | plain {gap rest : List Char} {b : Brick} {copies : List Brick} :
      Gap gap → b.Delimited → Copies copies rest →
      Copies (b :: copies) (gap ++ (b.tag ++ rest))
  | enclosed {gap before after rest : List Char} {b : Brick} {copies : List Brick} :
      Gap gap → Gap before → Gap after → b.Delimited → Copies copies rest →
      Copies (b :: copies) (gap ++ '(' :: (before ++ (b.tag ++ (after ++ ')' :: rest))))

inductive Written : List Translator → List Char → Prop
  | done {gap : List Char} : Gap gap → Written [] gap
  | brick {gap rest : List Char} {b : Brick} {row : List Translator} :
      Gap gap → b.Delimited → Written row rest →
      Written (.brick b :: row) (gap ++ (b.tag ++ rest))
  | replicate {gap before inside rest : List Char} {name : String} {copies : List Brick}
      {row : List Translator} :
      Gap gap → Gap before → '>' ∉ name.toList → Copies copies inside → Written row rest →
      Written (.replicate name copies :: row)
        (gap ++ '(' :: (before ++ (tag "REPLICATE" name.toList ++ (inside ++ ')' :: rest))))
  | stripe {gap before digits inside rest : List Char} {name : String} {size : UInt64}
      {children row : List Translator} :
      Gap gap → Gap before → '>' ∉ name.toList → '[' ∉ name.toList → Numeral size digits →
      Written children inside → Written row rest →
      Written (.stripe name size children :: row)
        (gap ++ '(' :: (before ++ (tag "STRIPE" (name.toList ++ ':' :: '[' :: (digits ++ [']'])) ++
          (inside ++ ')' :: rest))))
  | distribute {gap before inside rest : List Char} {name : String}
      {children row : List Translator} :
      Gap gap → Gap before → '>' ∉ name.toList → Written children inside → Written row rest →
      Written (.distribute name children :: row)
        (gap ++ '(' :: (before ++ (tag "DISTRIBUTE" name.toList ++ (inside ++ ')' :: rest))))

end Writing

end Translator

namespace Placement

open Token Translator

theorem stripeSize?_skip {skipped : List Char} (h : '[' ∉ skipped) (rest : List Char) :
    stripeSize? (skipped ++ rest) = stripeSize? rest := by
  induction skipped with
  | nil => rfl
  | cons c skipped ih =>
    have hc : c ≠ '[' := fun he => h (he ▸ List.mem_cons_self)
    rw [List.cons_append, stripeSize?, if_neg (by simp [hc])]
    exact ih fun hm => h (List.mem_cons_of_mem c hm)

theorem uint64?_numeral {size : UInt64} {digits : List Char} (h : Numeral size digits) :
    Text.uint64? (String.ofList digits) = some size := by
  have hread : Text.digits? digits = some size.toNat := by
    unfold Text.digits?
    rw [if_neg (by simpa using ⟨h.some, h.decimal⟩), h.value]
  have hnat : Text.natBelow? UInt64.size (String.ofList digits) = some size.toNat := by
    unfold Text.natBelow?
    rw [String.toList_ofList]
    split
    · have hplus := h.decimal '+' List.mem_cons_self
      cases hplus
    · rw [hread]
      simp [Option.filter_some, size.toNat_lt]
  rw [Text.uint64?, hnat]
  simp

/-- The size in brackets is found, whatever stands before the brackets and after them. -/
theorem stripeSize?_numeral {size : UInt64} {digits : List Char} (h : Numeral size digits)
    {before : List Char} (hbefore : '[' ∉ before) (rest : List Char) :
    stripeSize? (before ++ '[' :: (digits ++ ']' :: rest)) = some size := by
  have hdecimal : ∀ c ∈ digits, Text.isDecimalDigit c = true := fun c hc =>
    Text.isDecimalDigit_of_isDigit c (h.decimal c hc)
  have hstop : Text.isDecimalDigit ']' = false := by decide
  obtain ⟨htake, hdrop⟩ := (run_iff hstop).mpr
    ⟨(rfl : digits ++ ']' :: rest = digits ++ ']' :: rest), hdecimal⟩
  rw [stripeSize?_skip hbefore, stripeSize?, htake, hdrop]
  simp [h.some, uint64?_numeral h]

namespace Assembly

def read (a : Assembly) (text : List Char) : Assembly :=
  (scan text).foldl step a

variable {a : Assembly} {depth : Nat} {found : List (List Brick)} {size : Option UInt64}

theorem read_word {word : List Char} {t : Token} (h : Word word t) (rest : List Char) :
    a.read (word ++ rest) = (a.step t).read rest := by
  rw [read, scan_word h]
  rfl

theorem read_opening (rest : List Char) :
    a.read ('(' :: rest) = { a with depth := a.depth + 1 }.read rest :=
  read_word .opening rest

theorem isBlank_idle {c : Char} (h : Text.isBlank c = true) : Idle c := by
  refine ⟨?_, ?_, ?_⟩ <;> rintro rfl <;> exact absurd h (by decide)

theorem read_gap {gap : List Char} (h : Gap gap) (rest : List Char) :
    a.read (gap ++ rest) = a.read rest := by
  rw [read, scan_idle fun c hc => isBlank_idle (h c hc)]
  rfl

theorem read_closing (rest : List Char) : a.read (')' :: rest) = (a.step .closing).read rest :=
  read_word .closing rest

/-- A parenthesis is opened before the first word in it. -/
theorem read_node {gap before word : List Char} {t : Token} (hgap : Gap gap) (hbefore : Gap before)
    (hword : Word word t) (rest : List Char) :
    a.read (gap ++ '(' :: (before ++ (word ++ rest))) =
      (step { a with depth := a.depth + 1 } t).read rest := by
  rw [read_gap hgap, read_opening, read_gap hbefore, read_word hword]

/-- Copies go to the group that is being filled, and the parentheses around them match. -/
theorem read_copies {copies : List Brick} {text : List Char} (h : Copies copies text)
    (held : List Brick) (rest : List Char) :
    read ⟨depth, some (depth, held), found, size⟩ (text ++ rest) =
      read ⟨depth, some (depth, copies.reverse ++ held), found, size⟩ rest := by
  induction h generalizing held with
  | done hgap => exact read_gap hgap rest
  | @plain gap after b copies hgap hb _ ih =>
    have hbrick : step ⟨depth, some (depth, held), found, size⟩ (.brick b) =
      ⟨depth, some (depth, b :: held), found, size⟩ := rfl
    simp only [List.append_assoc]
    rw [read_gap hgap, read_word (.brick hb), hbrick, ih]
    simp
  | @enclosed gap before after tail b copies hgap hbefore hafter hb _ ih =>
    have hbrick : step ⟨depth + 1, some (depth, held), found, size⟩ (.brick b) =
      ⟨depth + 1, some (depth, b :: held), found, size⟩ := rfl
    have hclosing : step ⟨depth + 1, some (depth, b :: held), found, size⟩ .closing =
      ⟨depth, some (depth, b :: held), found, size⟩ := by simp [step]
    simp only [List.append_assoc, List.cons_append]
    rw [read_node hgap hbefore (.brick hb), hbrick, read_gap hafter, read_closing, hclosing, ih]
    simp

theorem stripe_word {size : UInt64} {name : String} {digits : List Char}
    (hname : '>' ∉ name.toList) (hbracket : '[' ∉ name.toList) (h : Numeral size digits) :
    Word (tag "STRIPE" (name.toList ++ ':' :: '[' :: (digits ++ [']']))) (.stripe (some size)) := by
  have hbefore : '[' ∉ ':' :: (name.toList ++ [':']) := by simpa
  have hsize := stripeSize?_numeral h hbefore []
  have hdigits : '>' ∉ digits := fun hm => absurd (h.decimal _ hm) (by decide)
  rw [← hsize, show ':' :: (name.toList ++ [':']) ++ '[' :: (digits ++ [']']) =
    ':' :: (name.toList ++ ':' :: '[' :: (digits ++ [']'])) by simp]
  apply Word.stripe
  simpa using ⟨hname, hdigits⟩

theorem closing_between :
    step ⟨depth + 1, none, found, size⟩ .closing = ⟨depth, none, found, size⟩ := rfl

/-- A written row of trees adds its groups, takes over its last stripe size, and leaves the depth as
it was. -/
theorem read_written {row : List Translator} {text : List Char} (h : Written row text)
    (depth : Nat) (found : List (List Brick)) (size : Option UInt64) (rest : List Char) :
    read ⟨depth, none, found, size⟩ (text ++ rest) =
      read ⟨depth, none, (Translator.groups row).reverse ++ found,
        (sizes row).getLast?.or size⟩ rest := by
  induction h generalizing depth found size rest with
  | done hgap => simpa [Translator.groups, sizes] using read_gap hgap rest
  | @brick gap after b row hgap hb _ ih =>
    have hbrick : step ⟨depth, none, found, size⟩ (.brick b) =
      ⟨depth, none, [b] :: found, size⟩ := rfl
    simp only [List.append_assoc]
    rw [read_gap hgap, read_word (.brick hb), hbrick, ih]
    simp [Translator.groups, sizes]
  | @replicate gap before inside after name copies row hgap hbefore hname hcopies _ ih =>
    have htag : Word (tag "REPLICATE" name.toList) .replicate := .replicate (by simpa using hname)
    have hnew : step ⟨depth + 1, none, found, size⟩ .replicate =
      ⟨depth + 1, some (depth + 1, []), found, size⟩ := rfl
    have hclosing : step ⟨depth + 1, some (depth + 1, copies.reverse ++ []), found, size⟩ .closing =
        ⟨depth, none, (if copies = [] then [] else [copies]) ++ found, size⟩ := by
      by_cases h0 : copies = [] <;> simp [step, close, h0]
    simp only [List.append_assoc, List.cons_append]
    rw [read_node hgap hbefore htag, hnew, read_copies hcopies, read_closing, hclosing, ih]
    by_cases h0 : copies = [] <;> simp [Translator.groups, sizes, h0]
  | @stripe gap before digits inside after name stripes children row hgap hbefore hname hbracket
      hdigits _ _ ihc ih =>
    have hnew : step ⟨depth + 1, none, found, size⟩ (.stripe (some stripes)) =
      ⟨depth + 1, none, found, some stripes⟩ := rfl
    simp only [List.append_assoc, List.cons_append]
    rw [read_node hgap hbefore (stripe_word hname hbracket hdigits), hnew, ihc, read_closing,
      closing_between, ih]
    simp [Translator.groups, sizes, List.getLast?_cons, List.getLast?_append]
  | @distribute gap before inside after name children row hgap hbefore hname _ _ ihc ih =>
    have htag : Word (tag "DISTRIBUTE" name.toList) .distribute :=
      .distribute (by simpa using hname)
    have hnew : step ⟨depth + 1, none, found, size⟩ .distribute =
      ⟨depth + 1, none, found, size⟩ := rfl
    simp only [List.append_assoc, List.cons_append]
    rw [read_node hgap hbefore htag, hnew, ihc, read_closing, closing_between, ih]
    simp [Translator.groups, sizes, List.getLast?_append, Option.or_assoc]

end Assembly

/-- Read from its text, a tree of translators with a brick in it gives its groups from left to
right, its last stripe size and, up to the largest number there is, the size of its largest
group. -/
theorem parse_translators {tree : Translator} {text : String} (h : Written [tree] text.toList)
    (hbrick : bricks [tree] ≠ []) :
    ∃ p, parse text = .ok p ∧ p.groups = Translator.groups [tree] ∧
      p.stripeSize = (sizes [tree]).getLast? ∧
      ∃ largest ∈ p.groups, (∀ group ∈ p.groups, group.length ≤ largest.length) ∧
        p.replication.toNat = min largest.length 65535 := by
  have hread := Assembly.read_written h 0 [] none []
  rw [List.append_nil, List.append_nil, Option.or_none] at hread
  have hend : (Token.scan text.toList).foldl Assembly.step .empty =
      ⟨0, none, (Translator.groups [tree]).reverse, (sizes [tree]).getLast?⟩ := by
    rw [Assembly.empty]
    show Assembly.read _ text.toList = _
    rw [hread, Assembly.read, scan]
    rfl
  have hgroups : Translator.groups [tree] ≠ [] := by
    intro h0
    rw [← groups_flatten, h0] at hbrick
    exact hbrick rfl
  have hfound : ofTokens? (Token.scan text.toList) =
      some ⟨Translator.groups [tree], (sizes [tree]).getLast?, hgroups⟩ := by
    unfold ofTokens?
    simp [hend, Assembly.close, hgroups]
  refine ⟨_, by rw [parse, hfound], rfl, rfl, ?_⟩
  apply replication_largest
  exact groups_filled [tree]

/-- Stripes on two groups, and copies that are kept nowhere. Angle brackets and parentheses stand
also in names and fields that they do not end. -/
def orchard : Translator :=
  .distribute "v" [
    .stripe "s" 131072 [
      .replicate "r-(0)" [⟨"h1", "/b>1", "/b1/f)"⟩, ⟨"h2", "/b1", "/b1/f"⟩],
      .brick ⟨"h3", "/b2", "/b2/f"⟩],
    .replicate "r-1" []]

def orchardText : String :=
  "(<DISTRIBUTE:v> (<STRIPE:s:[0131072]>
     ( <REPLICATE:r-(0)>( <POSIX(/b>1):h1:/b1/f)>)<POSIX(/b1):h2:/b1/f> )
     <POSIX(/b2):h3:/b2/f>) (<REPLICATE:r-1>))"

theorem orchard_written : Written [orchard] orchardText.toList := by
  have none : Gap [] := by decide
  have space : Gap [' '] := by decide
  have line : Gap "\n     ".toList := by decide
  have size : Numeral 131072 "0131072".toList := ⟨by decide, List.all_eq_true.mp (by decide), rfl⟩
  have copies : Copies [⟨"h1", "/b>1", "/b1/f)"⟩, ⟨"h2", "/b1", "/b1/f"⟩] _ :=
    .enclosed none space none (by decide) (.plain none (by decide) (.done space))
  have stripes : Written [.replicate "r-(0)" _, .brick ⟨"h3", "/b2", "/b2/f"⟩] _ :=
    .replicate line space (by decide) copies (.brick line (by decide) (.done none))
  have children : Written [.stripe "s" 131072 _, .replicate "r-1" []] _ :=
    .stripe space none (by decide) (by decide) size stripes
      (.replicate space none (by decide) (.done none) (.done none))
  have volume : Written [.distribute "v" _] _ :=
    .distribute none none (by decide) children (.done none)
  refine (congrArg (Written [orchard]) ?_).mpr volume
  decide +kernel

theorem orchard_read : ∃ p, parse orchardText = .ok p ∧
    p.groups = [[⟨"h1", "/b>1", "/b1/f)"⟩, ⟨"h2", "/b1", "/b1/f"⟩], [⟨"h3", "/b2", "/b2/f"⟩]] ∧
    p.stripeSize = some 131072 ∧ p.replication.toNat = 2 := by
  have hbrick : bricks [orchard] ≠ [] := by simp [orchard, bricks]
  obtain ⟨p, hp, hgroups, hsize, largest, hmem, hlargest, hcopies⟩ :=
    parse_translators orchard_written hbrick
  have hrow : Translator.groups [orchard] =
      [[⟨"h1", "/b>1", "/b1/f)"⟩, ⟨"h2", "/b1", "/b1/f"⟩], [⟨"h3", "/b2", "/b2/f"⟩]] := by
    simp [orchard, Translator.groups]
  rw [hgroups, hrow] at hmem hlargest
  refine ⟨p, hp, hgroups.trans hrow, ?_, ?_⟩
  · rw [hsize]
    simp [orchard, sizes]
  · have hpair := hlargest _ List.mem_cons_self
    rw [hcopies]
    rcases List.mem_pair.mp hmem with rfl | rfl
    · rfl
    · exact absurd hpair (by decide)

end Placement

end VolumeFS
