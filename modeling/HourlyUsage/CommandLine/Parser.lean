import HourlyUsage.CommandLine.Grammar

/-!
# Reading a command line

Arguments are read from left to right, level by level.  An option that stands
apart from its value stays pending with it until the next option of its level,
or until the levels below are read; only then is the value judged.  So an
argument that nobody knows is refused before a bad value in front of it.
-/

namespace HourlyUsage
namespace CommandLine

/-! ## Tokens -/

inductive Token where
  | escape
  | long (name : String) (value : Option String)
  | short (cluster : List Char)
  | plain
  deriving DecidableEq

/-- What an argument looks like.  A single hyphen is plain. -/
def Token.ofArgument (arg : String) : Token :=
  match arg.toList with
  | ['-', '-'] => .escape
  | '-' :: '-' :: rest =>
    let name := String.ofList (rest.takeWhile fun c ↦ c != '=')
    match rest.dropWhile fun c ↦ c != '=' with
    | [] => .long name none
    | _ :: value => .long name (some (String.ofList value))
  | '-' :: c :: rest => .short (c :: rest)
  | _ => .plain

/-! ## Values -/

structure Settings where
  format : Option Format := none
  account : Option String := none
  start : Option Instant := none
  stop : Option Instant := none
  window : Option Duration := none
  store : Option String := none
  output : Option String := none
  deriving DecidableEq

namespace Settings

def has (s : Settings) : Opt → Bool
  | .format => s.format.isSome
  | .account => s.account.isSome
  | .start => s.start.isSome
  | .stop => s.stop.isSome
  | .window => s.window.isSome
  | .store => s.store.isSome
  | .output => s.output.isSome

def set (s : Settings) (o : Opt) (value : String) : Except Refusal Settings :=
  match o with
  | .format =>
    if value = "table" then .ok { s with format := some .table }
    else if value = "json" then .ok { s with format := some .json }
    else if value.isEmpty then .error (.missingValue o)
    else .error (.unknownFormat value)
  | .account => .ok { s with account := some value }
  | .start =>
    match readTime value with
    | .ok t => .ok { s with start := some t }
    | .error e => .error (.badValue o value e)
  | .stop =>
    match readTime value with
    | .ok t => .ok { s with stop := some t }
    | .error e => .error (.badValue o value e)
  | .window =>
    match readWindow value with
    | .ok d => .ok { s with window := some d }
    | .error e => .error (.badValue o value e)
  | .store =>
    if value.isEmpty then .error (.missingValue o) else .ok { s with store := some value }
  | .output =>
    if value.isEmpty then .error (.missingValue o) else .ok { s with output := some value }

/-- Sets an option that may not be set yet. -/
def assign (s : Settings) (o : Opt) (value : String) : Except Refusal Settings :=
  if s.has o then .error (.repeated o) else s.set o value

end Settings

/-! ## One level -/

/-- What has been read of a level: the settings, and the option that is pending with the value
behind it. -/
structure Progress where
  settings : Settings := {}
  pending : Option (Opt × Option String) := none
  deriving DecidableEq

namespace Progress

def awaiting (p : Progress) : Bool :=
  match p.pending with
  | some (_, none) => true
  | _ => false

def resolve (p : Progress) : Except Refusal Settings :=
  match p.pending with
  | none => .ok p.settings
  | some (o, none) => .error (.missingValue o)
  | some (o, some value) => p.settings.assign o value

def attach (p : Progress) (o : Opt) (value : String) : Except Refusal Progress := do
  let s ← p.resolve
  let s ← s.assign o value
  return { settings := s }

def expect (p : Progress) (o : Opt) : Except Refusal Progress := do
  let s ← p.resolve
  return { settings := s, pending := some (o, none) }

def stopWith (p : Progress) (r : Refusal) : Except Refusal Progress := do
  let _ ← p.resolve
  throw r

end Progress

def takeLong (l : Level) (p : Progress) (name : String) (value : Option String) :
    Except Refusal Progress :=
  match l.ofLong? name with
  | some o =>
    match value with
    | some v => p.attach o v
    | none => p.expect o
  | none =>
    let flag? : Option Refusal :=
      if name = "help" then some (.help l)
      else if name = "version" ∧ l = .top then some .version
      else none
    match flag?, value with
    | some r, none => p.stopWith r
    | some _, some v => .error (.unneededValue ("--" ++ name) v)
    | none, _ => .error (.unknownArgument ("--" ++ name))

/-- A cluster of short names.  An option takes what is left of the cluster for its value, without an
equals sign in front. -/
def takeShort (l : Level) (p : Progress) : List Char → Except Refusal Progress
  | [] => .ok p
  | c :: rest =>
    match l.ofShort? c with
    | some o =>
      match rest with
      | [] => p.expect o
      | '=' :: value => p.attach o (String.ofList value)
      | value => p.attach o (String.ofList value)
    | none =>
      if c = 'h' then p.stopWith (.help l)
      else if c = 'V' ∧ l = .top then p.stopWith .version
      else .error (.unknownArgument (String.ofList ['-', c]))

def helpName : String := "help"

/-- Why an argument that is no option and no value is refused.  Behind the escape, the name of a
command is no command. -/
def refusePlain (l : Level) (escaped : Bool) (arg : String) : Refusal :=
  if l.children.isEmpty then .unknownArgument arg
  else if escaped ∧ ((l.child? arg).isSome ∨ arg = helpName) then .unknownArgument arg
  else .unknownCommand arg

/-- Reads the arguments of a level up to the name of a level below or of help. -/
def scan (l : Level) : (escaped : Bool) → Progress → List String →
    Except Refusal (Progress × Option (String × List String))
  | _, p, [] => .ok (p, none)
  | true, _, arg :: _ => .error (refusePlain l true arg)
  | false, p, arg :: rest =>
    if !p.awaiting && ((l.child? arg).isSome || (!l.children.isEmpty && arg == helpName)) then
      .ok (p, some (arg, rest))
    else match Token.ofArgument arg with
      | .escape => scan l true p rest
      | .long name value => do
        let p ← takeLong l p name value
        scan l false p rest
      | .short cluster => do
        let p ← takeShort l p cluster
        scan l false p rest
      | .plain =>
        match p.pending with
        | some (o, none) => scan l false { p with pending := some (o, some arg) } rest
        | _ => .error (refusePlain l false arg)

/-! ## All levels -/

structure Environment where
  account : Option String := none
  store : Option String := none
  deriving DecidableEq

structure Invocation where
  format : Format
  command : Command
  deriving DecidableEq

def defaultWindow : Duration := Duration.day

/-- Takes from the environment what a level has an option for and the command line left out. -/
def fillIn (l : Level) (env : Environment) (s : Settings) : Except Refusal Settings := do
  let s ← match env.account with
    | some v => if l.options.contains .account && !s.has .account then s.set .account v else pure s
    | none => pure s
  match env.store with
  | some v => if l.options.contains .store && !s.has .store then s.set .store v else return s
  | none => return s

/-- The command that a level asks for, if nothing that it requires is missing. -/
def Settings.command? (s : Settings) : Level → Option Command
  | .top => none
  | .usage => none
  | .query => do return .query ⟨← s.account, ← s.start, ← s.stop⟩
  | .plan => do
    return .plan ⟨⟨← s.account, ← s.start, ← s.stop⟩, s.window.getD defaultWindow⟩
  | .exportTo => do
    return .exportTo ⟨⟨⟨← s.account, ← s.start, ← s.stop⟩, s.window.getD defaultWindow⟩, ← s.store,
      ← s.output⟩

/-- Shows the help of the level that names lead to.  Help itself has a level without others
below. -/
def showHelp (l : Level) : List String → Refusal
  | [] => .help l
  | name :: rest =>
    match l.child? name with
    | some child => showHelp child rest
    | none =>
      if name = helpName ∧ !l.children.isEmpty then
        match rest with
        | [] => .help l
        | other :: _ => .unknownCommand other
      else .unknownCommand name

def endWithoutCommand (l : Level) (p : Progress) : Except Refusal Invocation := do
  let s ← p.resolve
  throw (if s = {} then .helpOnMissing l else .missingCommand l)

def parseCommand (l : Level) (env : Environment) (args : List String) :
    Except Refusal (Option Format × Command) := do
  let (p, _) ← scan l false {} args
  let s ← p.resolve
  let s ← fillIn l env s
  match s.command? l with
  | some c => return (s.format, c)
  | none => throw .missingRequired

def parseUsage (env : Environment) (args : List String) :
    Except Refusal (Option Format × Command) := do
  let (p, below) ← scan .usage false {} args
  match below with
  | none =>
    let r ← endWithoutCommand .usage p
    return (some r.format, r.command)
  | some (name, rest) =>
    match Level.usage.child? name with
    | none => throw (showHelp .usage rest)
    | some l =>
      let (format, c) ← parseCommand l env rest
      let s ← p.resolve
      return (format <|> s.format, c)

/-- Reads a command line.  Of several formats that of the deepest level counts. -/
def parse (env : Environment) (args : List String) : Except Refusal Invocation := do
  let (p, below) ← scan .top false {} args
  match below with
  | none => endWithoutCommand .top p
  | some (name, rest) =>
    match Level.top.child? name with
    | none => throw (showHelp .top rest)
    | some _ =>
      let (format, c) ← parseUsage env rest
      let s ← p.resolve
      return ⟨(format <|> s.format).getD .table, c⟩

end CommandLine
end HourlyUsage
