import VolumeFS.Text.Visible

/-!
# Quoted text

Text between double quotes in which every character can be seen: quotes and
backslashes get a backslash, and what cannot be shown is written by its name or
by its number.
-/

set_option autoImplicit false

namespace VolumeFS.Text

def hexNumber (n : Nat) : List Char :=
  Nat.toDigits 16 n

def quotedChar (c : Char) : List Char :=
  if c = '"' then ['\\', '"']
  else if c = '\\' then ['\\', '\\']
  else if c = '\t' then ['\\', 't']
  else if c = '\n' then ['\\', 'n']
  else if c = '\r' then ['\\', 'r']
  else if c.toNat = 0 then ['\\', '0']
  else if isVisible c then [c]
  else "\\u\x7b".toList ++ hexNumber c.toNat ++ ['\x7d']

def quoted (s : String) : String :=
  String.ofList ('"' :: s.toList.flatMap quotedChar ++ ['"'])

def titled (title : String) (fields : List (String × String)) (more : Bool) : String :=
  let shown := fields.map fun (name, value) => name ++ ": " ++ value
  title ++ " \x7b " ++ ", ".intercalate (if more then shown ++ [".."] else shown) ++ " \x7d"

def optional (value : Option String) : String :=
  match value with
  | some v => "Some(" ++ quoted v ++ ")"
  | none => "None"

def quotedList (items : List String) : String :=
  "[" ++ ", ".intercalate (items.map quoted) ++ "]"

end VolumeFS.Text
