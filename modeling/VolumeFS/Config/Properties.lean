import VolumeFS.Config
import VolumeFS.Text.Numeral

/-!
# Settings from a table of properties

Values are trimmed, and a blank one counts as left out. Keys that mean nothing
here are passed over.
-/

set_option autoImplicit false

namespace VolumeFS

/-- Reads the name of a backend, in any case and with blanks around it. -/
def Backend.ofWord (word : String) : Except Fault Backend :=
  let name := Text.lower (Text.trim word)
  if name = "fuse" ∨ name = "mount" then .ok .fuse
  else if name = "native" ∨ name = "gfapi" then .ok .native
  else .error (.config s!"unknown backend: {name}")

namespace Config

/-- The trimmed value of a property, unless it is blank. -/
def property? (properties : List (String × String)) (key : String) : Option String :=
  ((properties.lookup key).map Text.trim).filter (· ≠ "")

/-- The settings the properties give. The backend is judged before the buffer size. -/
def ofProperties (properties : List (String × String)) : Except Fault Config := do
  let get := property? properties
  let backend ← match get "fs.glusterfs.backend" with
    | some word => Backend.ofWord word
    | none => pure .fuse
  let bufferSize ← match get "io.file.buffer.size" with
    | some text =>
      match Text.natBelow? UInt64.size text with
      | some size => pure (some size)
      | none => throw (.config s!"io.file.buffer.size is not a number: {text}")
    | none => pure none
  return {
    backend
    volume := (get "fs.glusterfs.volname").or (get "fs.glusterfs.volume")
    server := get "fs.glusterfs.server"
    mount := get "fs.glusterfs.mount"
    quickRead := (get "quick.slave.io").any saysYes
    bufferSize
    uri := get "fs.default.name"
  }

end Config

end VolumeFS
