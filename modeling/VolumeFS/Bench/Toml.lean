import VolumeFS.Bench.Toml.Document

/-!
# A bench to read TOML on

Settings are read from records, by whatever reader of a data format is at hand.
This is one for TOML: `Toml.parse` reads a whole document into a table, or
refuses it. Values may be nested less than eighty deep, and a key may have less
than eighty names. Nothing outside of the bench is built on it.
-/

set_option autoImplicit false

namespace VolumeFS.Bench.Toml

open Record

/-- How deep values may be nested and how many names a key may have, plus one. -/
def depthLimit : Nat := 80

def skipComment (cs : List Char) : List Char :=
  if cs.head? = some '#' then cs.dropWhile isPlain else cs

def skipGap : Nat → List Char → List Char
  | 0, cs => cs
  | fuel + 1, cs =>
    let rest := skipComment (skipSpace cs)
    match newline? rest with
    | some more => skipGap fuel more
    | none => rest

def gap (cs : List Char) : List Char := skipGap (cs.length + 1) cs

/-- One or more items with a separator between them; a separator with no item behind it is left. -/
def separated {α : Type} (sep : Char) (item : Reader α) (cs : List Char) :
    Option (List α × List Char) :=
  match item cs with
  | none => none
  | some (a, []) => some ([a], [])
  | some (a, c :: rest) =>
    if c ≠ sep then some ([a], c :: rest)
    else if _h : rest.length < cs.length then
      match separated sep item rest with
      | some (as, rest) => some (a :: as, rest)
      | none => some ([a], c :: rest)
    else none
termination_by cs.length

def isBareKey (c : Char) : Bool := c.isAlphanum || c == '-' || c == '_'

def name? : Reader String
  | '"' :: cs => line? '"' cs
  | '\'' :: cs => line? '\'' cs
  | cs =>
    let bare := cs.takeWhile isBareKey
    if bare.isEmpty then none else some (String.ofList bare, cs.drop bare.length)

def key? (cs : List Char) : Option ((List String × String) × List Char) := do
  let (names, rest) ← separated '.' (fun cs => do
    let (name, rest) ← name? (skipSpace cs)
    some (name, skipSpace rest)) cs
  let last ← names.getLast?
  if names.length < depthLimit then some ((names.dropLast, last), rest) else none

def pair? (value : Reader Value) (cs : List Char) :
    Option ((List String × String × Value) × List Char) := do
  let ((path, last), rest) ← key? cs
  let rest ← after? ['='] rest
  let (v, rest) ← value (skipSpace rest)
  some ((path, last, v), skipSpace rest)

def tableOf? (pairs : List (List String × String × Value)) : Option Value := do
  let es ← pairs.foldlM (fun (es : Entries) (path, last, v) => es.add path last v) []
  some (.table (entriesToValues es))

def list? (value : Reader Value) (cs : List Char) : Option (Value × List Char) := do
  let item (cs : List Char) : Option (Value × List Char) := do
    let (v, rest) ← value (gap cs)
    some (v, gap rest)
  let (items, rest) := (separated ',' item cs).getD ([], cs)
  let rest := if items.isEmpty then rest else (after? [','] rest).getD rest
  let rest ← after? [']'] (gap rest)
  some (.list items, rest)

def inlineTable? (value : Reader Value) (cs : List Char) : Option (Value × List Char) := do
  let (pairs, rest) := (separated ',' (pair? value) cs).getD ([], cs)
  let rest ← after? ['\x7d'] (skipSpace rest)
  let v ← tableOf? pairs
  some (v, rest)

def value? : Nat → Reader Value
  | 0, cs => scalar? cs
  | depth + 1, cs =>
    match cs with
    | '[' :: rest => list? (value? depth) rest
    | '\x7b' :: rest => inlineTable? (value? depth) rest
    | cs => scalar? cs

/-- The rest of a line on which nothing more may stand but a comment. -/
def lineEnd? (cs : List Char) : Option (List Char) :=
  match skipComment (skipSpace cs) with
  | [] => some []
  | rest => newline? rest

/-- A document being read: its tables so far and the header the lines belong to. -/
structure State where
  root : Entries
  header : List String

def header? (close : List Char) (start : String → Entries → Option Entries) (s : State)
    (cs : List Char) : Option (State × List Char) := do
  let ((path, last), rest) ← key? cs
  let rest ← after? close rest
  let rest ← lineEnd? rest
  let root ← s.root.alter (start last) path
  some (⟨root, path ++ [last]⟩, rest)

def line (s : State) (cs : List Char) : Option (State × List Char) :=
  match cs with
  | '[' :: '[' :: rest => header? [']', ']'] Entries.openRow s rest
  | '[' :: rest => header? [']'] Entries.openTable s rest
  | cs =>
    match lineEnd? cs with
    | some rest => some (s, rest)
    | none => do
      let ((path, last, v), rest) ← pair? (value? (depthLimit - 1)) cs
      let rest ← lineEnd? rest
      let root ← s.root.alter (Entries.add path last v) s.header
      some (⟨root, s.header⟩, rest)

def lines (s : State) (cs : List Char) : Option State :=
  match skipSpace cs with
  | [] => some s
  | c :: more =>
    match line s (c :: more) with
    | none => none
    | some (s, rest) => if _h : rest.length < cs.length then lines s rest else none
termination_by cs.length

/-- The table a document describes; a byte order mark in front is skipped. -/
def parse (text : String) : Option Value := do
  let cs := match text.toList with
    | '\ufeff' :: cs => cs
    | cs => cs
  let s ← lines ⟨[], []⟩ cs
  some (.table (entriesToValues s.root))

def format : Format where
  isUnit
    | .list items => items.isEmpty
    | .table entries => entries.isEmpty
    | _ => false

end VolumeFS.Bench.Toml
