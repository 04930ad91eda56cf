import VolumeFS.Config
import VolumeFS.Record.Form
import VolumeFS.Text.Numeral

/-!
# Settings from a record

A record gives each setting by name, in the types of the settings themselves;
quick reading may also be given as a number or as a word. Fields that mean
nothing here are passed over. How a text becomes a record is left to a reader of
the data format.
-/

set_option autoImplicit false

namespace VolumeFS

open Record

/-- Reads a backend from its exact name, which may also be the only key of a table. -/
def Backend.ofRecord? (format : Format) : Value → Option Backend
  | .text name => named? name
  | .table [(name, value)] => if format.isUnit value then named? name else none
  | _ => none
where
  named? (name : String) : Option Backend :=
    [Backend.fuse, Backend.native].find? (·.name == name)

namespace Config

/-- Reads a truth value, a number or a word. -/
def flag? : Value → Option Bool
  | .bool b => some b
  | .int n => if Text.isInt64 n then some (n == 1) else none
  | .text word => some (saysYes word)
  | _ => none

def ofRecord? (format : Format) (record : Value) : Option Config := do
  let fields ← fields?
    ["backend", "volume", "server", "mount", "quick_read", "buffer_size", "uri"] record
  match fields with
  | [backend, volume, server, mount, quickRead, bufferSize, uri] =>
    return {
      backend := ← match backend with
        | some v => Backend.ofRecord? format v
        | none => some .fuse
      volume := ← optional? Value.text? volume
      server := ← optional? Value.text? server
      mount := ← optional? Value.text? mount
      quickRead := ← match quickRead with
        | some v => flag? v
        | none => some false
      bufferSize := ← optional? (Value.natBelow? UInt64.size) bufferSize
      uri := ← optional? Value.text? uri
    }
  | _ => none

def toRecord (c : Config) : Value :=
  let given {α : Type} [ToRecord α] (name : String) (setting : Option α) :
      List (String × Value) :=
    (setting.map (entry name)).toList
  .table <|
    [entry "backend" c.backend.name, entry "quick_read" c.quickRead] ++
    given "volume" c.volume ++ given "server" c.server ++ given "mount" c.mount ++
    given "buffer_size" c.bufferSize ++ given "uri" c.uri

section Text

variable (format : Format) (read : String → Option Value)

def ofText (text : String) : Except Fault Config :=
  match (read text).bind (ofRecord? format) with
  | some c => .ok c
  | none => .error (.config "invalid config")

def ofFile (path : String) (contents : Except IoError (List UInt8)) : Except Fault Config :=
  match contents with
  | .error e => .error (.config s!"{path}: {e.message}")
  | .ok bytes =>
    match String.fromUTF8? ⟨bytes.toArray⟩ with
    | some text => ofText format read text
    | none => .error (.config s!"{path}: stream did not contain valid UTF-8")

end Text

end Config

end VolumeFS
