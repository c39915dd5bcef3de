import StakeConsensus.Settings.Node

/-!
# The options of a run

Every option takes one value. Only the list of validators that do not start may be
given more than once; its values add up.
-/

namespace StakeConsensus

inductive RunOption where
  | config
  | validators
  | heights
  | metricsAddress
  | offline
  | transfers
  | logFormat
deriving DecidableEq, Inhabited

namespace RunOption

def all : List RunOption :=
  [config, validators, heights, metricsAddress, offline, transfers, logFormat]

def long : RunOption → String
  | config => "config"
  | validators => "validators"
  | heights => "heights"
  | metricsAddress => "metrics-addr"
  | offline => "offline"
  | transfers => "transfers"
  | logFormat => "log-format"

def short? : RunOption → Option Char
  | config => some 'c'
  | _ => none

/-- The name of its value, and of the option in messages. -/
def valueName (o : RunOption) : String := o.long.toUpper.map fun c => if c = '-' then '_' else c

def display (o : RunOption) : String := "--" ++ o.long ++ " <" ++ o.valueName ++ ">"

def ofLong? (name : String) : Option RunOption := all.find? fun o => o.long == name
def ofShort? (c : Char) : Option RunOption := all.find? fun o => o.short? == some c

end RunOption

/-- Why arguments make no command. -/
inductive UsageFault where
  | noCommand
  | unknownArgument (argument : String)
  | unknownCommand (name : String)
  | missingValue (o : RunOption)
  | badValue (o : RunOption) (text : String)
  | repeated (o : RunOption)
  /-- A value for a flag. -/
  | unexpectedValue (flag text : String)
deriving DecidableEq

def UsageFault.message : UsageFault → String
  | noCommand => "a command is required"
  | unknownArgument a => "unexpected argument '" ++ a ++ "' found"
  | unknownCommand n => "unrecognized subcommand '" ++ n ++ "'"
  | missingValue o => "a value is required for '" ++ o.display ++ "' but none was supplied"
  | badValue o text => "invalid value '" ++ text ++ "' for '" ++ o.display ++ "'"
  | repeated o => "the argument '" ++ o.display ++ "' cannot be used multiple times"
  | unexpectedValue flag text =>
    "unexpected value '" ++ text ++ "' for '--" ++ flag ++ "' found; no more were expected"

/-- The values given for a run. -/
structure RunOptions where
  /-- The path of a file with settings. -/
  config : Option String
  overrides : Overrides
deriving DecidableEq, Inhabited

namespace RunOptions

def none : RunOptions := ⟨.none, ⟨.none, .none, .none, [], .none, .none⟩⟩

/-- A count of 64 bits in decimal digits, with or without a plus sign. -/
def readCount (text : String) : Option UInt64 :=
  let ds := match text.toList with
    | '+' :: rest => rest
    | cs => cs
  let n := ds.foldl (fun n d => n * 10 + (d.toNat - 48)) 0
  if ds.isEmpty || !ds.all Char.isDigit || wordSize ≤ n then .none else some n.toUInt64

def count (o : RunOption) (text : String) : Except UsageFault UInt64 :=
  match readCount text with
  | some n => .ok n
  | .none => .error (.badValue o text)

/-- The value of an option that may be given once. -/
def once {α : Type} (o : RunOption) (present : Option α) (value : Except UsageFault α) :
    Except UsageFault (Option α) :=
  if present.isSome then .error (.repeated o) else value.map some

/-- Takes the value of an option. -/
def give (r : RunOptions) (o : RunOption) (text : String) : Except UsageFault RunOptions :=
  let v := r.overrides
  match o with
  | .config =>
    let path := if text.isEmpty then .error (.missingValue o) else .ok text
    (once o r.config path).map fun x => { r with config := x }
  | .validators =>
    (once o v.validators (count o text)).map fun x =>
      { r with overrides := { v with validators := x } }
  | .heights =>
    (once o v.heights (count o text)).map fun x => { r with overrides := { v with heights := x } }
  | .metricsAddress =>
    (once o v.metricsAddress (.ok text)).map fun x =>
      { r with overrides := { v with metricsAddress := x } }
  | .offline =>
    ((text.splitOn ",").mapM (count o)).map fun l =>
      { r with overrides := { v with offline := v.offline ++ l } }
  | .transfers =>
    (once o v.transfers (count o text)).map fun x =>
      { r with overrides := { v with transfers := x } }
  | .logFormat =>
    (once o v.logFormat (.ok text)).map fun x => { r with overrides := { v with logFormat := x } }

end RunOptions

end StakeConsensus
