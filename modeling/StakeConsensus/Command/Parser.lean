import StakeConsensus.Command.Options

/-!
# Reading the command line

The first argument that is not an option names a command, and the rest belongs to it.
Two dashes alone end the options. An option keeps its value until the next option or
the end and is only then read, so that an unknown argument right behind a bad value
is reported first.
-/

namespace StakeConsensus

inductive Command where
  | run (o : RunOptions)
  | version
deriving DecidableEq

/-- What a help text is about. -/
inductive Topic where
  | program
  | run
  | version
  | help
deriving DecidableEq, Inhabited

/-- Why there is no command to perform. -/
inductive Interruption where
  | help (topic : Topic) (long : Bool)
  /-- The version of the program, in the name of a command. -/
  | versionOf (topic : Topic)
  | fault (why : UsageFault)
deriving DecidableEq

/-- An argument, as long as options are looked for. -/
inductive Argument where
  /-- Two dashes. -/
  | stop
  | long (name : String) (value : Option String)
  /-- One dash and the characters behind it. -/
  | short (flags : List Char)
  | plain (text : String)
deriving DecidableEq

def Argument.ofText (text : String) : Argument :=
  match text.toList with
  | ['-', '-'] => .stop
  | '-' :: '-' :: rest =>
    match rest.span (· ≠ '=') with
    | (name, '=' :: value) => .long (String.ofList name) (some (String.ofList value))
    | (name, _) => .long (String.ofList name) none
  | '-' :: c :: rest => .short (c :: rest)
  | _ => .plain text

/-- Arguments of a command in the middle of being read. -/
structure OptionScan where
  topic : Topic
  given : RunOptions
  /-- The last option, with its value if that is there already. -/
  pending : Option (RunOption × Option String)
  /-- Whether two dashes were read. -/
  stopped : Bool

namespace OptionScan

def start (topic : Topic) : OptionScan := ⟨topic, .none, none, false⟩

abbrev Result := Except Interruption

def fail {α : Type} (why : UsageFault) : Result α := .error (.fault why)

/-- Takes the value of the last option. -/
def resolve (s : OptionScan) : Result OptionScan :=
  match s.pending with
  | none => .ok s
  | some (o, none) => fail (.missingValue o)
  | some (o, some text) =>
    match s.given.give o text with
    | .ok given => .ok { s with given, pending := none }
    | .error why => fail why

/-- An option with its value, or without if that is the next argument. -/
def option (s : OptionScan) (o : RunOption) (value : Option String) : Result OptionScan :=
  match s.resolve with
  | .error e => .error e
  | .ok s =>
    let s := { s with pending := some (o, value) }
    if value.isSome then s.resolve else .ok s

/-- A flag that ends the reading; what was read before has to be right. -/
def interrupt (s : OptionScan) (i : Interruption) : Result OptionScan :=
  match s.resolve with
  | .error e => .error e
  | .ok _ => .error i

/-- An option of the command; only a run has any. -/
def known (s : OptionScan) (o : Option RunOption) : Option RunOption :=
  if s.topic = .run then o else none

def long (s : OptionScan) (name : String) (value : Option String) : Result OptionScan :=
  match s.known (RunOption.ofLong? name), value with
  | some o, _ => s.option o value
  | none, some text =>
    if name = "help" ∨ name = "version" then fail (.unexpectedValue name text)
    else fail (.unknownArgument ("--" ++ name))
  | none, none =>
    if name = "help" then s.interrupt (.help s.topic true)
    else if name = "version" then s.interrupt (.versionOf s.topic)
    else fail (.unknownArgument ("--" ++ name))

/-- What stands behind the letter of an option is its value. -/
def short (s : OptionScan) : List Char → Result OptionScan
  | [] => .ok s
  | c :: rest =>
    match s.known (RunOption.ofShort? c) with
    | some o => s.option o (match rest with
      | [] => none
      | '=' :: value => some (String.ofList value)
      | value => some (String.ofList value))
    | none =>
      if c = 'h' then s.interrupt (.help s.topic false)
      else if c = 'V' then s.interrupt (.versionOf s.topic)
      else fail (.unknownArgument (String.ofList ['-', c]))

def plain (s : OptionScan) (text : String) : Result OptionScan :=
  match s.pending with
  | some (o, none) => .ok { s with pending := some (o, some text) }
  | _ => fail (.unknownArgument text)

def step (s : OptionScan) (text : String) : Result OptionScan :=
  if s.stopped then fail (.unknownArgument text)
  else
    match Argument.ofText text with
    | .stop => .ok { s with stopped := true }
    | .long name value => s.long name value
    | .short flags => s.short flags
    | .plain text => s.plain text

/-- The options that all arguments of a command give. -/
def read (topic : Topic) (args : List String) : Result RunOptions := do
  return (← (← args.foldlM step (start topic)).resolve).given

end OptionScan

namespace Command

def commandNames : List (String × Topic) := [("run", .run), ("version", .version), ("help", .help)]

/-- The command that asks for a help text. -/
def helpOn : List String → Interruption
  | [] => .help .program true
  | name :: rest =>
    match commandNames.lookup name, rest with
    | none, _ => .fault (.unknownCommand name)
    | some topic, [] => .help topic true
    | some _, next :: _ => .fault (.unknownCommand next)

/-- Arguments behind two dashes where a command should be. -/
def behindStop : List String → Interruption
  | [] => .fault .noCommand
  | text :: _ =>
    if (commandNames.lookup text).isSome then .fault (.unknownArgument text)
    else .fault (.unknownCommand text)

/-- The command that the arguments name. -/
def parse : List String → Except Interruption Command
  | [] => .error (.fault .noCommand)
  | text :: rest =>
    match Argument.ofText text with
    | .stop => .error (behindStop rest)
    | .long name value =>
      match (OptionScan.start .program).long name value with
      | .error e => .error e
      | .ok _ => .error (.fault (.unknownArgument text))
    | .short flags =>
      match (OptionScan.start .program).short flags with
      | .error e => .error e
      | .ok _ => .error (.fault (.unknownArgument text))
    | .plain name =>
      match commandNames.lookup name with
      | some .run => (OptionScan.read .run rest).map .run
      | some .version => (OptionScan.read .version rest).map fun _ => .version
      | some .help => .error (helpOn rest)
      | _ => .error (.fault (.unknownCommand name))

end Command

end StakeConsensus
