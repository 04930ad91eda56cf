import VolumeFS.Bench.Program
import VolumeFS.Text.Blank

/-!
# Lists of shell commands

A shell text is a list of commands: words with quotes and parameters, and the
redirections of what is written. Commands stand one after the other or depend
on the success of the one before. The shell runs some commands itself; a list
may end it by `exit` or by a signal to itself.
-/

set_option autoImplicit false

namespace VolumeFS.Bench

inductive Piece where
  | text (cs : List Char) (quoted : Bool)
  | parameter (name : String) (quoted : Bool)
  deriving DecidableEq, Repr, Inhabited

abbrev Word := List Piece

inductive Token where
  | word (word : Word)
  | next
  | newline
  | andThen
  | orElse
  /-- The redirection of a channel to a file, or to where another channel leads. -/
  | redirect (channel : Nat) (copies : Bool)
  /-- The end of the text inside quotes. -/
  | openQuote
  deriving DecidableEq, Repr, Inhabited

def isNameStart (c : Char) : Bool := c.isAlpha || c = '_'

def isNamePart (c : Char) : Bool := c.isAlphanum || c = '_'

/-- The parameter at the start of a text behind a dollar sign, and how long it is. -/
def parameter? (cs : List Char) : Option (String × Nat) :=
  match cs with
  | '\x7b' :: cs =>
    let name := cs.takeWhile (· ≠ '\x7d')
    if name.isEmpty || name.length = cs.length then none
    else some (String.ofList name, name.length + 2)
  | c :: _ =>
    if isNameStart c then
      let name := cs.takeWhile isNamePart
      some (String.ofList name, name.length)
    else if c.isDigit || ['?', '#', '@', '*', '$'].contains c then some (String.singleton c, 1)
    else none
  | [] => none

abbrev Reading := Option Word

def Reading.add (word : Reading) (piece : Piece) : Reading :=
  some (piece :: word.getD [])

/-- Puts the word being read, if there is one, in front of the tokens. -/
def Reading.before (word : Reading) (tokens : List Token) : List Token :=
  match word with
  | some pieces => .word pieces.reverse :: tokens
  | none => tokens

def Reading.channel? : Reading → Option Nat
  | some [.text [c] false] => if c.isDigit then some (c.toNat - 48) else none
  | _ => none

/-- The redirection after the word being read, which may be the number of its channel. -/
def Reading.redirected (word : Reading) (standard : Nat) (copies : Bool) (tokens : List Token) :
    List Token :=
  match word.channel? with
  | some channel => .redirect channel copies :: tokens
  | none => word.before (.redirect standard copies :: tokens)

/-- The tokens of a shell text, given whether it stands between double quotes. -/
def tokens : Nat → Bool → Reading → List Char → List Token
  | 0, _, _, _ => []
  | fuel + 1, true, word, cs =>
    match cs with
    | [] => [.openQuote]
    | '"' :: cs => tokens fuel false word cs
    | '\\' :: '\n' :: cs => tokens fuel true word cs
    | '\\' :: c :: cs =>
      let kept := if ['$', '\x60', '"', '\\'].contains c then [c] else ['\\', c]
      tokens fuel true (word.add (.text kept true)) cs
    | '$' :: cs =>
      match parameter? cs with
      | some (name, length) =>
        tokens fuel true (word.add (.parameter name true)) (cs.drop length)
      | none => tokens fuel true (word.add (.text ['$'] true)) cs
    | c :: cs => tokens fuel true (word.add (.text [c] true)) cs
  | fuel + 1, false, word, cs =>
    match cs with
    | [] => word.before []
    | '\'' :: cs =>
      let quoted := cs.takeWhile (· ≠ '\'')
      if quoted.length = cs.length then [.openQuote]
      else tokens fuel false (word.add (.text quoted true)) (cs.drop (quoted.length + 1))
    | '"' :: '$' :: '@' :: '"' :: cs => tokens fuel false (word.add (.parameter "@" true)) cs
    | '"' :: cs => tokens fuel true (word.add (.text [] true)) cs
    | '\\' :: '\n' :: cs => tokens fuel false word cs
    | '\\' :: c :: cs => tokens fuel false (word.add (.text [c] true)) cs
    | '$' :: cs =>
      match parameter? cs with
      | some (name, length) =>
        tokens fuel false (word.add (.parameter name false)) (cs.drop length)
      | none => tokens fuel false (word.add (.text ['$'] false)) cs
    | '&' :: '&' :: cs => word.before (.andThen :: tokens fuel false none cs)
    | '|' :: '|' :: cs => word.before (.orElse :: tokens fuel false none cs)
    | ';' :: cs => word.before (.next :: tokens fuel false none cs)
    | '\n' :: cs => word.before (.newline :: tokens fuel false none cs)
    | '>' :: '&' :: cs => word.redirected 1 true (tokens fuel false none cs)
    | '>' :: '>' :: cs => word.redirected 1 false (tokens fuel false none cs)
    | '>' :: cs => word.redirected 1 false (tokens fuel false none cs)
    | '<' :: cs => word.redirected 0 false (tokens fuel false none cs)
    | c :: cs =>
      if c = ' ' ∨ c = '\t' then word.before (tokens fuel false none cs)
      else if c = '#' ∧ word.isNone then tokens fuel false none (cs.dropWhile (· ≠ '\n'))
      else tokens fuel false (word.add (.text [c] false)) cs

structure Command where
  /-- The success of the command before that it takes, if it takes one. -/
  needs : Option Bool
  words : List Word
  /-- The redirections: a channel, whether it copies another one, and to what it leads. -/
  redirections : List (Nat × Bool × Word)
  /-- The number of its line. -/
  line : Nat
  /-- Whether it is no command but the end of the text inside quotes. -/
  endsOpen : Bool
  deriving Repr, Inhabited

/-- The commands of the tokens, given the one being read with its parts reversed. -/
def commands (c : Command) : List Token → List Command
  | [] => [finish c]
  | .word w :: ts => commands { c with words := w :: c.words } ts
  | .openQuote :: ts => commands c ts
  | .redirect channel copies :: .word w :: ts =>
    commands { c with redirections := (channel, copies, w) :: c.redirections } ts
  | .redirect .. :: ts => commands c ts
  | .next :: ts => finish c :: commands ⟨none, [], [], c.line, false⟩ ts
  | .newline :: ts =>
    if c.words.isEmpty && c.redirections.isEmpty then commands { c with line := c.line + 1 } ts
    else finish c :: commands ⟨none, [], [], c.line + 1, false⟩ ts
  | .andThen :: ts => finish c :: commands ⟨some true, [], [], c.line, false⟩ ts
  | .orElse :: ts => finish c :: commands ⟨some false, [], [], c.line, false⟩ ts
where
  finish (c : Command) : Command :=
    { c with words := c.words.reverse, redirections := c.redirections.reverse }

structure Session where
  name : String
  args : List String
  settings : List (String × String)
  /-- The exit code of the last command. -/
  status : Int
  deriving Repr, Inhabited

namespace Session

def ownNumber : String := "$$"

def value (s : Session) (name : String) : String :=
  match name with
  | "?" => toString s.status
  | "#" => toString s.args.length
  | "@" | "*" => " ".intercalate s.args
  | "$" => ownNumber
  | "0" => s.name
  | name =>
    match Text.digits? name.toList with
    | some n => s.args.getD (n - 1) ""
    | none => (s.settings.lookup name).getD ""

/-- The words that come from one word, given the finished ones reversed and the one being made. -/
def expandFrom (s : Session) (done : List String) (current : Option (List Char)) :
    Word → List String
  | [] => (current.elim done fun cs => String.ofList cs :: done).reverse
  | .text cs _ :: pieces => s.expandFrom done (some (current.getD [] ++ cs)) pieces
  | .parameter "@" true :: pieces =>
    match s.args with
    | [] => s.expandFrom done current pieces
    | [only] => s.expandFrom done (some (current.getD [] ++ only.toList)) pieces
    | first :: rest =>
      let first := String.ofList (current.getD [] ++ first.toList)
      s.expandFrom (rest.dropLast.reverse ++ first :: done) (rest.getLast?.map String.toList) pieces
  | .parameter name true :: pieces =>
    s.expandFrom done (some (current.getD [] ++ (s.value name).toList)) pieces
  | .parameter name false :: pieces =>
    let value := (s.value name).toList
    let opens := value.head?.any Text.isBlank
    let closes := value.getLast?.any Text.isBlank
    let (done, current) := match current with
      | some cs => if opens then (String.ofList cs :: done, none) else (done, current)
      | none => (done, none)
    match (Text.words value).reverse with
    | [] => s.expandFrom done current pieces
    | [only] =>
      let only := current.getD [] ++ only
      if closes then s.expandFrom (String.ofList only :: done) none pieces
      else s.expandFrom done (some only) pieces
    | last :: before =>
      let before := match before.reverse with
        | [] => []
        | first :: more => (current.getD [] ++ first) :: more
      let done := (before.map String.ofList).reverse ++ done
      if closes then s.expandFrom (String.ofList last :: done) none pieces
      else s.expandFrom done (some last) pieces

def expand (s : Session) (w : Word) : List String :=
  s.expandFrom [] none w

def text (s : Session) (w : Word) : String :=
  String.join (w.map fun
    | .text cs _ => String.ofList cs
    | .parameter name _ => s.value name)

end Session

def assignment? (w : Word) : Option (String × Word) :=
  let plain := w.takeWhile fun | .text _ false => true | _ => false
  let cs := plain.flatMap fun | .text cs _ => cs | _ => []
  let name := cs.takeWhile (· ≠ '=')
  if cs.length = name.length ∨ !name.head?.any isNameStart ∨ !name.all isNamePart then none
  else some (String.ofList name,
    .text (cs.drop (name.length + 1)) false :: w.drop plain.length)

inductive Sink where
  | output
  | errors
  | nowhere
  deriving DecidableEq, Repr, Inhabited

def sinks (s : Session) (current : List (Nat × Sink)) :
    List (Nat × Bool × Word) → List (Nat × Sink)
  | [] => current
  | (channel, copies, w) :: rest =>
    let target := s.text w
    let sink :=
      if copies then ((Text.digits? target.toList).bind (List.lookup · current)).getD .nowhere
      else if target = "/dev/stdout" then (current.lookup 1).getD .nowhere
      else if target = "/dev/stderr" then (current.lookup 2).getD .nowhere
      else .nowhere
    sinks s ((channel, sink) :: current) rest

/-- What goes to a sink when the standard channels lead where they lead, complaints first. -/
def collected (sink : Sink) (leading : List (Nat × Sink)) (o : Outcome) : List UInt8 :=
  (if leading.lookup 2 = some sink then o.stderr else []) ++
    (if leading.lookup 1 = some sink then o.stdout else [])

def Complaint.shellText : Complaint → String
  | .noNumber argument => s!"printf: {argument}: expected numeric value"
  | .notWhole argument => s!"printf: {argument}: not completely converted"
  | .badDirective "%" => "printf: missing format character"
  | .badDirective directive => s!"printf: {directive}: invalid directive"

def shellPrintf (place : String) : List String → Outcome
  | [] => .failed 2 (place ++ "printf: usage: printf format [arg ...]")
  | form :: args =>
    let written := format .ofShellFormat .ofShellEcho form args
    let isBroken := written.complaints.any fun | .badDirective _ => true | _ => false
    ⟨some (if isBroken then 2 else if written.complaints.isEmpty then 0 else 1), written.bytes,
      Text.bytes (String.join (written.complaints.map fun complaint =>
        place ++ complaint.shellText ++ "\n"))⟩

/-- The numbers of the signals that do not end a process, and those of no signal at all. -/
def isHarmless (signal : String) : Bool :=
  ["0", "17", "18", "23", "28", "CHLD", "CONT", "EXIT", "URG", "WINCH"].contains signal

/-- The signal that the arguments of `kill` ask for, and to which processes it goes. -/
def killed : List String → String × List String
  | "-s" :: signal :: processes => (signal, processes)
  | "--" :: processes => ("TERM", processes)
  | option :: processes =>
    match option.toList with
    | '-' :: signal => (String.ofList signal, processes)
    | _ => ("TERM", option :: processes)
  | [] => ("TERM", [])

def exitCode? (text : String) : Option Int :=
  ((Text.digits? text.toList).filter (· ≤ 2147483647)).map fun n => (n % 256 : Nat)

def started (place name : String) (args : List String) : Outcome :=
  match programName name with
  | .ok program => (program? program name args).getD (.failed 127 s!"{place}{name}: not found")
  | .error e =>
    if e = notAllowed then .failed 126 s!"{place}{name}: Permission denied"
    else .failed 127 s!"{place}{name}: not found"

/-- What one command does, and whether the shell ends with it. `place` is what its complaints
start with. -/
def step (s : Session) (place : String) : List String → Outcome × Bool
  | [] => (.ofCode 0, false)
  | "!" :: words =>
    let (outcome, ends) := step s place words
    ({ outcome with code := outcome.code.map fun code => if code = 0 then 1 else 0 }, ends)
  | "exec" :: words => if words.isEmpty then (.ofCode 0, false) else ((step s place words).1, true)
  | ["exit"] => (.ofCode s.status, true)
  | "exit" :: text :: _ =>
    match exitCode? text with
    | some code => (.ofCode code, true)
    | none => (.failed 2 s!"{place}exit: Illegal number: {text}", true)
  | "kill" :: args =>
    let (signal, processes) := killed args
    if processes.contains Session.ownNumber && !isHarmless signal then (⟨none, [], []⟩, true)
    else (.ofCode (if processes.contains Session.ownNumber then 0 else 1), false)
  | ":" :: _ => (.ofCode 0, false)
  | "echo" :: "-n" :: args => (codedLine .ofShellEcho args "", false)
  | "echo" :: args => (codedLine .ofShellEcho args "\n", false)
  | "printf" :: args => (shellPrintf place args, false)
  | name :: args => (started place name args, false)

def runList (s : Session) : List Command → Outcome
  | [] => .ofCode s.status
  | c :: cs =>
    if c.endsOpen then .failed 2 s!"{s.name}: {c.line}: Syntax error: Unterminated quoted string"
    else if c.needs.any (· != (s.status == 0)) then runList s cs
    else
      let set := (c.words.takeWhile fun w => (assignment? w).isSome).filterMap assignment?
      let words := (c.words.drop set.length).flatMap s.expand
      let leading := sinks s [(1, .output), (2, .errors)] c.redirections
      let (outcome, ends) := step s s!"{s.name}: {c.line}: " words
      let out := collected .output leading outcome
      let err := collected .errors leading outcome
      if ends then ⟨outcome.code, out, err⟩
      else
        let settings := if words.isEmpty then
            set.foldl (fun known (name, w) => (name, s.text w) :: known) s.settings
          else s.settings
        let isNothing := c.words.isEmpty && c.redirections.isEmpty
        let status := if isNothing then s.status else outcome.code.getD 0
        let rest := runList { s with settings, status } cs
        ⟨rest.code, out ++ rest.stdout, err ++ rest.stderr⟩

/-- The tokens, in reverse, before the line that the first ones belong to. A line goes on behind
`&&` and `||`. -/
def linesBefore : List Token → List Token
  | [] => []
  | .newline :: .andThen :: ts | .newline :: .orElse :: ts => linesBefore ts
  | .newline :: ts => ts
  | _ :: ts => linesBefore ts

/-- The commands of a text with so many lines. Nothing is run of a line that leaves a quote open. -/
def runnable (lines : Nat) (tokens : List Token) : List Command :=
  let start : Command := ⟨none, [], [], 1, false⟩
  if tokens.getLast? = some .openQuote then
    commands start (linesBefore tokens.reverse).reverse ++
      [{ start with line := lines, endsOpen := true }]
  else commands start tokens

/-- Runs a shell text. The first argument after the text is the shell's own name. -/
def runText (name text : String) (args : List String) : Outcome :=
  let cs := text.toList
  runList ⟨args.headD name, args.drop 1, [], 0⟩
    (runnable (1 + cs.count '\n') (tokens (cs.length + 1) false none cs))

end VolumeFS.Bench
