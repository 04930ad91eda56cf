import VolumeFS.Bench.Printf
import VolumeFS.Fault
import VolumeFS.Text.Numeral
import VolumeFS.Text.Split

/-!
# Programs that need only their arguments

The programs `true`, `false`, `echo`, `printf`, `sleep` and `test`, and `cat`
and `ls` for files that are not there. A program is found by its name alone or
by a path into one of the directories for programs.
-/

set_option autoImplicit false

namespace VolumeFS.Bench

/-- How a program ended, without an exit code if by a signal, and the bytes it wrote. -/
structure Outcome where
  code : Option Int
  stdout : List UInt8
  stderr : List UInt8
  deriving DecidableEq, Repr, Inhabited

def Outcome.ofCode (code : Int) : Outcome := ⟨some code, [], []⟩

def Outcome.failed (code : Int) (reason : String) : Outcome :=
  ⟨some code, [], Text.bytes (reason ++ "\n")⟩

def line (args : List String) (ending : String) : Outcome :=
  ⟨some 0, Text.bytes (" ".intercalate args ++ ending), []⟩

/-- The arguments between blanks with backslash codes, which may end the output early. -/
def codedLine (codes : Escapes) (args : List String) (ending : String) : Outcome :=
  let (bytes, stopped) := codes.decode (" ".intercalate args).toList
  ⟨some 0, bytes ++ (if stopped then [] else Text.bytes ending), []⟩

def echoOption? (argument : String) : Option (List Char) :=
  match argument.toList with
  | '-' :: cs => if !cs.isEmpty && cs.all ['n', 'e', 'E'].contains then some cs else none
  | _ => none

def echo (coded : Bool) (ending : String) : List String → Outcome
  | [] => line [] ending
  | argument :: args =>
    match echoOption? argument with
    | some letters =>
      echo ((letters.reverse.find? (· ≠ 'n')).elim coded (· = 'e'))
        (if letters.contains 'n' then "" else ending) args
    | none =>
      if coded then codedLine .ofEcho (argument :: args) ending
      else line (argument :: args) ending

/-- How a byte is written between single quotes in which every byte can be seen. -/
def seenByte (b : UInt8) : List Char :=
  if b = 39 ∨ b = 92 then ['\\', Char.ofNat b.toNat]
  else if 32 ≤ b ∧ b ≤ 126 then [Char.ofNat b.toNat]
  else
    let letter := ['a', 'b', 'f', 'n', 'r', 't', 'v'].find? fun c => letterCode? c = some b
    '\\' :: letter.elim ((Nat.toDigits 8 (512 + b.toNat)).drop 1) ([·])

def seen (text : String) : String :=
  String.ofList ('\'' :: (Text.bytes text).flatMap seenByte ++ ['\''])

/-- What a program `printf` says about a format or an argument, behind its name. -/
def Complaint.text : Complaint → String
  | .noNumber argument => s!": {seen argument}: expected a numeric value\n"
  | .notWhole argument => s!": {seen argument}: value not completely converted\n"
  | .badDirective directive => s!": {directive}: invalid conversion specification\n"

def printf (name : String) : List String → Outcome
  | [] => .failed 1 s!"{name}: missing operand\nTry '{name} --help' for more information."
  | form :: args =>
    let written := format .ofFormat { Escapes.ofFormat with leadingZero := true } form args
    ⟨some (if written.complaints.isEmpty then 0 else 1), written.bytes,
      Text.bytes (String.join (written.complaints.map (name ++ ·.text)))⟩

def comparison? : String → Option (Int → Int → Bool)
  | "-eq" => some (· == ·)
  | "-ne" => some (· != ·)
  | "-lt" => some (decide <| · < ·)
  | "-le" => some (decide <| · ≤ ·)
  | "-gt" => some (decide <| · > ·)
  | "-ge" => some (decide <| · ≥ ·)
  | _ => none

/-- Whether the condition of `test` holds, if it is about texts and numbers alone. -/
def holds? : List String → Option Bool
  | [] => some false
  | ["!"] => some true
  | "!" :: rest => (holds? rest).map not
  | [text] => some (text ≠ "")
  | ["-n", text] => some (text ≠ "")
  | ["-z", text] => some (text = "")
  | [a, "=", b] => some (a = b)
  | [a, "!=", b] => some (a ≠ b)
  | [a, operator, b] => do return (← comparison? operator) (← Text.int64? a) (← Text.int64? b)
  | _ => none

def test (condition : List String) : Outcome :=
  .ofCode (match holds? condition with
    | some true => 0
    | some false => 1
    | none => 2)

def isSpecial (c : Char) : Bool :=
  " \t\n!\"$&'()*;<=>?[\\^\x60|".toList.contains c

/-- A file name as it could be typed: between quotes where that is needed, or always. -/
def typed (always : Bool) (file : String) : String :=
  let cs := file.toList
  if always || cs.isEmpty || cs.any isSpecial || ['#', '~'].any (cs.head? = some ·) then s!"'{file}'"
  else file

/-- One line about each of the files, none of which is there; the other arguments are options. -/
def missing? (code : Int) (about : String → String) (args : List String) : Option Outcome :=
  let files := args.filter fun argument => argument.toList.head? ≠ some '-'
  if files.isEmpty then none
  else some ⟨some code, [], Text.bytes (String.join (files.map fun file =>
    about file ++ ": No such file or directory\n"))⟩

def programs : List String :=
  ["true", "false", "echo", "printf", "sleep", "test", "[", "cat", "ls", "sh"]

/-- A program that needs only its arguments, started by a name or a path. -/
def program? (program startedAs : String) (args : List String) : Option Outcome :=
  match program with
  | "true" => some (.ofCode 0)
  | "false" => some (.ofCode 1)
  | "echo" => some (echo false "\n" args)
  | "printf" => some (printf startedAs args)
  | "sleep" => if args.isEmpty then none else some (.ofCode 0)
  | "test" => some (test args)
  | "[" => if args.getLast? = some "]" then some (test args.dropLast) else none
  | "cat" => missing? 1 (fun file => s!"{startedAs}: {typed false file}") args
  | "ls" => missing? 2 (fun file => s!"{startedAs}: cannot access {typed true file}") args
  | _ => none

/-- The directories that the bench takes to be there, by their names from the root. -/
def directories : List (List String) :=
  [[], ["bin"], ["boot"], ["dev"], ["etc"], ["home"], ["lib"], ["mnt"], ["opt"], ["proc"],
   ["root"], ["run"], ["sbin"], ["srv"], ["sys"], ["tmp"], ["usr"], ["usr", "bin"],
   ["usr", "lib"], ["usr", "local"], ["usr", "sbin"], ["var"], ["var", "tmp"]]

/-- The files that it takes to be there and to be no programs. -/
def plainFiles : List (List String) :=
  [["dev", "null"], ["dev", "zero"], ["etc", "group"], ["etc", "hostname"], ["etc", "hosts"],
   ["etc", "passwd"]]

def notAllowed : IoError := .os 13
def notDirectory : IoError := .os 20

/-- The name of the program that a name or a path stands for. -/
def programName (name : String) : Except IoError String :=
  if !name.toList.contains '/' then
    if name = "." ∨ name = ".." then .error notAllowed
    else if programs.contains name then .ok name
    else .error .noEntry
  else
    let parts := (Text.fields '/' name.toList).map String.ofList
    let names := parts.filter fun part => part ≠ "" ∧ part ≠ "."
    let ends := parts.getLast?.any fun part => part ≠ "" ∧ part ≠ "."
    let inDirectory (names : List String) : Except IoError String :=
      match names with
      | [] => .error notAllowed
      | program :: below =>
        if !programs.contains program then .error .noEntry
        else if below.isEmpty && ends then .ok program
        else .error notDirectory
    if name.toList.head? ≠ some '/' then .error .noEntry
    else if directories.contains names then .error notAllowed
    else if plainFiles.contains names then .error (if ends then notAllowed else notDirectory)
    else match names with
      | "bin" :: names => inDirectory names
      | "usr" :: "bin" :: names => inDirectory names
      | _ => .error .noEntry

end VolumeFS.Bench
