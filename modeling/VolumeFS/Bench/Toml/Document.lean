import VolumeFS.Bench.Toml.Scalar
import VolumeFS.Table

/-!
# Tables of a TOML document

A document is a tree of tables. A table comes about by its own header, on the
way to a longer header, or on the way of a dotted key, and it matters which:
only a table that was merely on the way to a longer header may still get a
header of its own, and a dotted key may only go on into tables that have none.
-/

set_option autoImplicit false

namespace VolumeFS.Bench.Toml

open Record

inductive Origin where
  | header
  | implied
  | dotted
  deriving DecidableEq, Repr, Inhabited

inductive Node where
  | leaf (value : Value)
  | table (origin : Origin) (entries : List (String × Node))
  /-- A list of tables, each with a header of its own, the latest first. -/
  | rows (latest : List (String × Node)) (earlier : List (List (String × Node)))
  deriving Repr, Inhabited

abbrev Entries := Table String Node

/-- Adds a value under a dotted key; `fits` tells whether one may end in these entries. -/
def Entries.put (fits : Bool) (last : String) (value : Value) :
    List String → Entries → Option Entries
  | [], es =>
    if fits ∧ (es.lookup last).isNone then some (Table.set last (.leaf value) es) else none
  | name :: path, es =>
    match es.lookup name with
    | none => do
      let sub ← Entries.put true last value path []
      some (Table.set name (.table .dotted sub) es)
    | some (.leaf _) => none
    | some (.table .header _) => none
    | some (.table origin sub) => do
      let sub ← Entries.put (origin == .dotted) last value path sub
      some (Table.set name (.table origin sub) es)
    | some (.rows latest earlier) => do
      let latest ← Entries.put false last value path latest
      some (Table.set name (.rows latest earlier) es)

def Entries.add (path : List String) (last : String) (value : Value) (es : Entries) :
    Option Entries :=
  Entries.put path.isEmpty last value path es

/-- Changes the entries of the table at the end of the path, making tables on the way. -/
def Entries.alter (change : Entries → Option Entries) : List String → Entries → Option Entries
  | [], es => change es
  | name :: path, es =>
    match es.lookup name with
    | none => do
      let sub ← Entries.alter change path []
      some (Table.set name (.table .implied sub) es)
    | some (.leaf _) => none
    | some (.table origin sub) => do
      let sub ← Entries.alter change path sub
      some (Table.set name (.table origin sub) es)
    | some (.rows latest earlier) => do
      let latest ← Entries.alter change path latest
      some (Table.set name (.rows latest earlier) es)

def Entries.openTable (name : String) (es : Entries) : Option Entries :=
  match es.lookup name with
  | none => some (Table.set name (.table .header []) es)
  | some (.table .implied sub) => some (Table.set name (.table .header sub) es)
  | some _ => none

def Entries.openRow (name : String) (es : Entries) : Option Entries :=
  match es.lookup name with
  | none => some (Table.set name (.rows [] []) es)
  | some (.rows latest earlier) => some (Table.set name (.rows [] (latest :: earlier)) es)
  | some _ => none

mutual

def Node.toValue : Node → Value
  | .leaf value => value
  | .table _ entries => .table (entriesToValues entries)
  | .rows latest earlier => .list (rowsToValues earlier [.table (entriesToValues latest)])

def entriesToValues : List (String × Node) → List (String × Value)
  | [] => []
  | (name, node) :: es => (name, node.toValue) :: entriesToValues es

def rowsToValues : List (List (String × Node)) → List Value → List Value
  | [], values => values
  | row :: rows, values => rowsToValues rows (.table (entriesToValues row) :: values)

end

end VolumeFS.Bench.Toml
