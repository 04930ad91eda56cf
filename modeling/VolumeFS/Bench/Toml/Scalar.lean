import VolumeFS.Record.Value
import VolumeFS.Text.Numeral

/-!
# The scalars of TOML

Each reader takes the remaining characters and gives a value and what is left,
or nothing where the text is not of its kind. Strings come in four forms, one
line or many, with escapes or without; numbers may have underscores between
digits; dates and times are checked against the calendar.
-/

set_option autoImplicit false

namespace VolumeFS.Bench.Toml

open Record

abbrev Reader (α : Type) := List Char → Option (α × List Char)

def isSpace (c : Char) : Bool := c == ' ' || c == '\t'

/-- A character that may stand in a comment or a string: a tab, or none of the controls. -/
def isPlain (c : Char) : Bool := c == '\t' || (c.toNat ≥ 0x20 && c.toNat ≠ 0x7F)

def skipSpace (cs : List Char) : List Char := cs.dropWhile isSpace

def after? (word cs : List Char) : Option (List Char) :=
  if word.isPrefixOf cs then some (cs.drop word.length) else none

/-- What follows a line feed, with or without a carriage return before it. -/
def newline? : List Char → Option (List Char)
  | '\n' :: cs => some cs
  | '\r' :: '\n' :: cs => some cs
  | _ => none

def hexDigit? (c : Char) : Option Nat :=
  if c.isDigit then some (c.toNat - 48)
  else if 'a' ≤ c ∧ c ≤ 'f' then some (c.toNat - 87)
  else if 'A' ≤ c ∧ c ≤ 'F' then some (c.toNat - 55)
  else none

def character? (digits : List Char) : Option Char := do
  let values ← digits.mapM hexDigit?
  let n := values.foldl (fun n d => 16 * n + d) 0
  if n.isValidChar then some (Char.ofNat n) else none

def escape? : Reader Char
  | 'b' :: cs => some ('\x08', cs)
  | 't' :: cs => some ('\t', cs)
  | 'n' :: cs => some ('\n', cs)
  | 'f' :: cs => some ('\x0c', cs)
  | 'r' :: cs => some ('\r', cs)
  | '"' :: cs => some ('"', cs)
  | '\\' :: cs => some ('\\', cs)
  | 'u' :: cs =>
    if cs.length < 4 then none else (character? (cs.take 4)).map fun c => (c, cs.drop 4)
  | 'U' :: cs =>
    if cs.length < 8 then none else (character? (cs.take 8)).map fun c => (c, cs.drop 8)
  | _ => none

def marks (mark : Char) (cs : List Char) : Nat := (cs.takeWhile (· == mark)).length

def skipLines (cs : List Char) : List Char :=
  cs.dropWhile fun c => isSpace c || c == '\n' || c == '\r'

/-- The rest of a string on one line, with what was read so far in reverse. -/
def lineBody (mark : Char) (escapes : Bool) : Nat → List Char → Reader String
  | 0, _, _ => none
  | _ + 1, _, [] => none
  | fuel + 1, read, c :: cs =>
    if c = mark then some (String.ofList read.reverse, cs)
    else if escapes ∧ c = '\\' then do
      let (e, rest) ← escape? cs
      lineBody mark escapes fuel (e :: read) rest
    else if isPlain c then lineBody mark escapes fuel (c :: read) cs
    else none

/-- Whether spaces up to a line end follow, which a backslash in front joins to the next line. -/
def endsLine (cs : List Char) : Bool := (newline? (skipSpace cs)).isSome

/-- Where a line end is written with a carriage return it has to be followed by a line feed. -/
def loneReturn : List Char → Bool
  | [] => false
  | '\r' :: '\n' :: cs => loneReturn cs
  | '\r' :: _ => true
  | _ :: cs => loneReturn cs

/-- The rest of a string of many lines, with what was read so far in reverse. -/
def linesBody (mark : Char) (escapes : Bool) : Nat → List Char → Reader String
  | 0, _, _ => none
  | _ + 1, _, [] => none
  | fuel + 1, read, c :: cs =>
    if c = mark then
      let count := 1 + marks mark cs
      if count < 3 then linesBody mark escapes fuel (c :: read) cs
      else if count < 6 then
        some (String.ofList (List.replicate (count - 3) mark ++ read).reverse, cs.drop (count - 1))
      else none
    else if escapes ∧ c = '\\' then
      if endsLine cs then
        let rest := skipLines cs
        if loneReturn (cs.take (cs.length - rest.length)) then none
        else linesBody mark escapes fuel read rest
      else do
        let (e, rest) ← escape? cs
        linesBody mark escapes fuel (e :: read) rest
    else match newline? (c :: cs) with
      | some rest => linesBody mark escapes fuel ('\n' :: read) rest
      | none => if isPlain c then linesBody mark escapes fuel (c :: read) cs else none

def line? (mark : Char) (cs : List Char) : Option (String × List Char) :=
  lineBody mark (mark == '"') (cs.length + 1) [] cs

def string? : Reader String
  | mark :: cs =>
    if mark = '"' ∨ mark = '\'' then
      match after? [mark, mark] cs with
      | some rest =>
        let body := (newline? rest).getD rest
        linesBody mark (mark == '"') (body.length + 1) [] body
      | none => line? mark cs
    else none
  | [] => none

def grouped (isDigit : Char → Bool) (cs : List Char) : Option (List Char × List Char) :=
  match cs with
  | [] => none
  | c :: cs =>
    if !isDigit c then none
    else match more cs with
      | (digits, rest) => some (c :: digits, rest)
where
  more : List Char → List Char × List Char
    | '_' :: d :: cs =>
      if isDigit d then match more cs with
        | (digits, rest) => (d :: digits, rest)
      else ([], '_' :: d :: cs)
    | c :: cs =>
      if isDigit c then match more cs with
        | (digits, rest) => (c :: digits, rest)
      else ([], c :: cs)
    | [] => ([], [])

def sign : List Char → List Char × List Char
  | '+' :: cs => ([], cs)
  | '-' :: cs => (['-'], cs)
  | cs => ([], cs)

def wholePart? : Reader (List Char)
  | '0' :: cs => some (['0'], cs)
  | cs => grouped Char.isDigit cs

def decimal? (cs : List Char) : Option (List Char × List Char) := do
  let (sign, cs) := sign cs
  let (digits, rest) ← wholePart? cs
  some (sign ++ digits, rest)

def based? (base : Nat) (isDigit : Char → Bool) (cs : List Char) :
    Option (Value × List Char) := do
  let (digits, rest) ← grouped isDigit cs
  let values ← digits.mapM hexDigit?
  let n := values.foldl (fun n d => base * n + d) 0
  if Text.isInt64 n then some (.int n, rest) else none

/-- A whole number of 64 bits, in base 10, 16, 8 or 2. -/
def integer? : Reader Value
  | '0' :: 'x' :: cs => based? 16 (fun c => (hexDigit? c).isSome) cs
  | '0' :: 'o' :: cs => based? 8 (fun c => '0' ≤ c ∧ c ≤ '7') cs
  | '0' :: 'b' :: cs => based? 2 (fun c => c == '0' || c == '1') cs
  | cs => do
    let (text, rest) ← decimal? cs
    let n ← Text.int64? (String.ofList text)
    some (.int n, rest)

/-- Whether a decimal number, its digits being `digits` times ten to the `exponent`, rounds to a
finite double. -/
def isFinite (digits : List Char) (exponent : Int) : Bool :=
  let n := Text.decimalValue 0 digits
  if n = 0 then true
  else
    let size := (digits.dropWhile (· == '0')).length + exponent
    if size < 300 then true
    else if size > 400 then false
    else
      let bound := Nat.pow 2 1024 - Nat.pow 2 970
      let scale := Nat.pow 10 exponent.natAbs
      if exponent < 0 then n < bound * scale else n * scale < bound

def exponent? : Reader (List Char × Int)
  | c :: cs =>
    if c = 'e' ∨ c = 'E' then do
      let (sign, cs) := sign cs
      let (digits, rest) ← grouped Char.isDigit cs
      let n : Int := Text.decimalValue 0 digits
      some (('e' :: sign ++ digits, if sign.isEmpty then n else -n), rest)
    else none
  | [] => none

/-- A float: a fraction, an exponent or both, or one of the special values. -/
def float? (cs : List Char) : Option (Value × List Char) :=
  let (sign, unsigned) := sign cs
  match after? "inf".toList unsigned with
  | some rest => some (.float (String.ofList (sign ++ "inf".toList)), rest)
  | none =>
    match after? "nan".toList unsigned with
    | some rest => some (.float "nan", rest)
    | none => do
      let (whole, rest) ← wholePart? unsigned
      let (fraction, rest) ← match rest with
        | '.' :: rest => grouped Char.isDigit rest
        | rest => if (exponent? rest).isSome then some ([], rest) else none
      let ((power, n), rest) := (exponent? rest).getD (([], 0), rest)
      let text := sign ++ whole ++ (if fraction.isEmpty then [] else '.' :: fraction) ++ power
      if sign.isEmpty ∧ !isFinite (whole ++ fraction) (n - fraction.length) then none
      else some (.float (String.ofList text), rest)

/-- A number of a fixed count of digits that lies between two bounds. -/
def ranged? (count low high : Nat) (cs : List Char) : Option (Nat × List Char) := do
  if cs.length < count then none
  let n ← Text.digits? (cs.take count)
  if low ≤ n ∧ n ≤ high then some (n, cs.drop count) else none

def daysIn (year month : Nat) : Nat :=
  if month = 2 then
    if year % 4 = 0 ∧ (year % 100 ≠ 0 ∨ year % 400 = 0) then 29 else 28
  else if month = 4 ∨ month = 6 ∨ month = 9 ∨ month = 11 then 30
  else 31

def day? (cs : List Char) : Option (List Char) := do
  let (year, cs) ← ranged? 4 0 9999 cs
  let cs ← after? ['-'] cs
  let (month, cs) ← ranged? 2 1 12 cs
  let cs ← after? ['-'] cs
  let (_, cs) ← ranged? 2 1 (daysIn year month) cs
  some cs

/-- A time of the day, with or without a fraction of a second. -/
def time? (cs : List Char) : Option (List Char) := do
  let (_, cs) ← ranged? 2 0 23 cs
  let cs ← after? [':'] cs
  let (_, cs) ← ranged? 2 0 59 cs
  let cs ← after? [':'] cs
  let (_, cs) ← ranged? 2 0 60 cs
  match cs with
  | '.' :: rest =>
    if (rest.takeWhile Char.isDigit).isEmpty then none else some (rest.dropWhile Char.isDigit)
  | cs => some cs

def zone? : List Char → Option (List Char)
  | 'Z' :: cs => some cs
  | 'z' :: cs => some cs
  | c :: cs =>
    if c = '+' ∨ c = '-' then do
      let (_, cs) ← ranged? 2 0 23 cs
      let cs ← after? [':'] cs
      let (_, cs) ← ranged? 2 0 59 cs
      some cs
    else none
  | [] => none

/-- What follows the time of a day that may stand after a date. -/
def timeOfDay? : List Char → Option (List Char)
  | c :: cs =>
    if c = 'T' ∨ c = 't' ∨ c = ' ' then (time? cs).map fun rest => (zone? rest).getD rest else none
  | [] => none

def date? (cs : List Char) : Option (Value × List Char) := do
  let rest ← match day? cs with
    | some rest => some ((timeOfDay? rest).getD rest)
    | none => time? cs
  some (.date (String.ofList (cs.take (cs.length - rest.length))), rest)

def bool? (cs : List Char) : Option (Value × List Char) :=
  match after? "true".toList cs with
  | some rest => some (.bool true, rest)
  | none => (after? "false".toList cs).map fun rest => (.bool false, rest)

def scalar? (cs : List Char) : Option (Value × List Char) :=
  match string? cs with
  | some (s, rest) => some (.text s, rest)
  | none => (bool? cs).or ((date? cs).or ((float? cs).or (integer? cs)))

end VolumeFS.Bench.Toml
