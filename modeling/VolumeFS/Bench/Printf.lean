import VolumeFS.Bench.Escape

/-!
# Formats

A format is written with its arguments put in the place of its directives, and
written again until all arguments are used up. Missing arguments count as empty
texts and zeros; the first byte of an empty text is a NUL. The program `printf`
and the shell's own `printf` differ in the backslash codes they know and in how
they complain.
-/

set_option autoImplicit false

namespace VolumeFS.Bench

inductive Complaint where
  | noNumber (argument : String)
  | notWhole (argument : String)
  | badDirective (directive : String)
  deriving DecidableEq, Repr, Inhabited

inductive Extent where
  | fixed (n : Nat)
  | fromArgument
  deriving DecidableEq, Repr, Inhabited

structure Directive where
  flags : List Char
  width : Option Extent
  precision : Option Extent
  conversion : Char
  deriving DecidableEq, Repr, Inhabited

/-- A width or a precision at the start of a text, and what follows it. -/
def extent? (cs : List Char) : Option Extent × List Char :=
  match cs with
  | '*' :: cs => (some .fromArgument, cs)
  | cs =>
    let digits := cs.takeWhile Char.isDigit
    (if digits.isEmpty then none else some (.fixed (valueIn 10 digits)), cs.drop digits.length)

def directive? (cs : List Char) : Option (Directive × List Char) :=
  let flags := cs.takeWhile fun c => ['-', '+', ' ', '#', '0'].contains c
  let (width, cs) := extent? (cs.drop flags.length)
  let (precision, cs) := match cs with
    | '.' :: cs =>
      let (precision, cs) := extent? cs
      (some (precision.getD (.fixed 0)), cs)
    | cs => (none, cs)
  match cs with
  | c :: cs =>
    if ['d', 'i', 'u', 'o', 'x', 'X', 'c', 's', 'b'].contains c then
      some (⟨flags, width, precision, c⟩, cs)
    else none
  | [] => none

/-- The number at the start of a text and whether the text ends with it, if there is one. A quote
in front asks for the number of the character behind it. -/
def number? (s : String) : Option (Int × Bool) :=
  match s.toList with
  | '\'' :: c :: _ | '"' :: c :: _ => some (c.toNat, true)
  | cs =>
    let (sign, cs) : Int × List Char := match cs with
      | '-' :: cs => (-1, cs)
      | '+' :: cs => (1, cs)
      | cs => (1, cs)
    let (base, cs) := match cs with
      | '0' :: 'x' :: cs | '0' :: 'X' :: cs => (16, cs)
      | '0' :: cs => (8, '0' :: cs)
      | cs => (10, cs)
    let digits := cs.takeWhile fun c => (hexDigit? c).any (· < base)
    if digits.isEmpty then none
    else some (sign * valueIn base digits, digits.length = cs.length)

def numberOf (argument : String) : Int × List Complaint :=
  match number? argument with
  | some (n, true) => (n, [])
  | some (n, false) => (n, [.notWhole argument])
  | none => (0, if argument = "" then [] else [.noNumber argument])

def fill (left : Bool) (byte : UInt8) (width : Nat) (bytes : List UInt8) : List UInt8 :=
  let filling := List.replicate (width - bytes.length) byte
  if left then bytes ++ filling else filling ++ bytes

def wordCount : Int := 18446744073709551616

/-- A number as the directive writes it, without filling: its sign or base, and its digits. -/
def Directive.numeral (d : Directive) (n : Int) : String × List Char :=
  let word := (n % wordCount).toNat
  let signed := if n < 0 then "-" else if d.flags.contains '+' then "+"
    else if d.flags.contains ' ' then " " else ""
  let based (mark : String) := if d.flags.contains '#' && word != 0 then mark else ""
  match d.conversion with
  | 'o' => (based "0", Nat.toDigits 8 word)
  | 'x' => (based "0x", Nat.toDigits 16 word)
  | 'X' => (based "0X", (Nat.toDigits 16 word).map Char.toUpper)
  | 'u' => ("", Nat.toDigits 10 word)
  | _ => (signed, Nat.toDigits 10 n.natAbs)

def Directive.number (d : Directive) (width : Nat) (precision : Option Nat) (n : Int) :
    List UInt8 :=
  let (mark, digits) := d.numeral n
  let left := d.flags.contains '-'
  let wanted := match precision with
    | some count => count
    | none => if d.flags.contains '0' && !left then width - mark.length else 0
  fill left 32 width (Text.bytes mark ++ fill false 48 wanted (utf8 digits))

structure Written where
  bytes : List UInt8
  complaints : List Complaint
  /-- The arguments not used yet. -/
  left : List String
  /-- Whether an argument was asked for. -/
  used : Bool
  /-- Whether nothing more is to be written. -/
  stopped : Bool
  deriving Repr, Inhabited

def Written.after (w : Written) (bytes : List UInt8) (complaints : List Complaint) (used : Bool) :
    Written :=
  { w with
    bytes := bytes ++ w.bytes
    complaints := complaints ++ w.complaints
    used := used || w.used }

/-- The number a width or a precision stands for, and the arguments left. -/
def Extent.value (e : Extent) (args : List String) : Int × List Complaint × List String :=
  match e with
  | .fixed n => (n, [], args)
  | .fromArgument =>
    let (n, complaints) := numberOf (args.headD "")
    (n, complaints, args.drop 1)

def Directive.write (d : Directive) (texts : Escapes) (args : List String) : Written :=
  let (width, complaints, args) := match d.width with
    | some e => e.value args
    | none => (0, [], args)
  let d := if width < 0 then { d with flags := '-' :: d.flags } else d
  let (precision, more, args) : Option Int × List Complaint × List String := match d.precision with
    | some e =>
      let (n, complaints, args) := e.value args
      (some n, complaints, args)
    | none => (none, [], args)
  let precision := (precision.filter (0 ≤ ·)).map Int.toNat
  let complaints := complaints ++ more
  let argument := args.headD ""
  let filled := fill (d.flags.contains '-') 32 width.natAbs
  let written (bytes : List UInt8) (complaints : List Complaint) (stopped : Bool) : Written :=
    ⟨bytes, complaints, args.drop 1, true, stopped⟩
  match d.conversion with
  | 's' =>
    let bytes := Text.bytes argument
    written (filled (bytes.take (precision.getD bytes.length))) complaints false
  | 'b' =>
    let (bytes, stopped) := texts.decode argument.toList
    written (filled (bytes.take (precision.getD bytes.length))) complaints stopped
  | 'c' => written (filled ((Text.bytes argument ++ [0]).take 1)) complaints false
  | _ =>
    let (n, more) := numberOf argument
    written (d.number width.natAbs precision n) (complaints ++ more) false

/-- A format written once. The codes in the format are `codes`, those in arguments are `texts`. -/
def formatOnce (codes texts : Escapes) : Nat → List Char → List String → Written
  | 0, _, args | _ + 1, [], args => ⟨[], [], args, false, false⟩
  | fuel + 1, '\\' :: cs, args =>
    match codes.read cs with
    | .stop => ⟨[], [], args, false, true⟩
    | .bytes bytes taken =>
      (formatOnce codes texts fuel (cs.drop taken) args).after bytes [] false
  | fuel + 1, '%' :: '%' :: cs, args => (formatOnce codes texts fuel cs args).after [37] [] false
  | fuel + 1, '%' :: cs, args =>
    match directive? cs with
    | none => ⟨[], [.badDirective (String.ofList ('%' :: cs.take 1))], args, false, true⟩
    | some (d, cs) =>
      let first := d.write texts args
      if first.stopped then first
      else (formatOnce codes texts fuel cs first.left).after first.bytes first.complaints true
  | fuel + 1, c :: cs, args => (formatOnce codes texts fuel cs args).after (utf8 [c]) [] false

def formatAll (codes texts : Escapes) (form : List Char) : Nat → List String → Written
  | 0, args => ⟨[], [], args, false, false⟩
  | fuel + 1, args =>
    let first := formatOnce codes texts (form.length + 1) form args
    if first.used && !first.stopped && !first.left.isEmpty then
      (formatAll codes texts form fuel first.left).after first.bytes first.complaints true
    else first

def format (codes texts : Escapes) (form : String) (args : List String) : Written :=
  formatAll codes texts form.toList (args.length + 1) args

end VolumeFS.Bench
