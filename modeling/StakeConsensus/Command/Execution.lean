import StakeConsensus.Block.Header
import StakeConsensus.Command.Help
import StakeConsensus.Settings.Node.Toml

/-!
# Performing a command

A command either ends at once, with an exit code and what it writes, or starts a
network with settings that were found to be right. The exit code is 2 if the
arguments make no command, and 1 if the network cannot start.
-/

namespace StakeConsensus

/-- How the program ends. -/
structure Exit where
  code : UInt32
  output : String
  errors : String
deriving DecidableEq, Inhabited

/-- Why nothing can listen at an address. -/
inductive AddressFault where
  /-- There is no port. -/
  | noPort
  | badPort
deriving DecidableEq

def AddressFault.message : AddressFault → String
  | noPort => "invalid socket address"
  | badPort => "invalid port value"

/-- An address ends in a colon and a port of 16 bits. -/
def checkAddress (address : String) : Except AddressFault Unit :=
  match address.splitOn ":" with
  | [] | [_] => .error .noPort
  | parts =>
    match RunOptions.readCount (parts.getLastD "") with
    | some port => if port.toNat < UInt16.size then .ok () else .error .badPort
    | none => .error .badPort

/-- Why a network does not start. -/
inductive StartFault where
  /-- The file with the settings cannot be read. -/
  | unreadable (path : String)
  /-- It is no settings file. -/
  | malformed (path : String)
  | settings (why : SettingsFault)
  | filter (directives : String)
  | address (address : String) (why : AddressFault)
deriving DecidableEq

/-- What is wrong, and below it its cause, if there is one. -/
def StartFault.messages : StartFault → List String
  | unreadable path =>
    ["failed to read config file: " ++ path, "No such file or directory (os error 2)"]
  | malformed path => ["failed to parse config file: " ++ path, "TOML parse error"]
  | settings why => why.messages
  | filter directives => ["invalid log filter: " ++ directives, "invalid filter directive"]
  | address a why => ["failed to bind metrics listener on " ++ a, why.message]

/-- The text of an error with its causes. -/
def StartFault.report (f : StartFault) : String :=
  match f.messages with
  | [] => "Error\n"
  | [m] => "Error: " ++ m ++ "\n"
  | m :: causes => "Error: " ++ m ++ "\n\nCaused by:\n    " ++ "\n    ".intercalate causes ++ "\n"

/-- An intermediate result that does not fit its word ends the program with a code of
its own. -/
def StartFault.exit (f : StartFault) : Exit :=
  match f with
  | settings .overflow => ⟨101, "", SettingsFault.overflow.messages.headD "" ++ "\n"⟩
  | f => ⟨1, "", f.report⟩

namespace NodeSettings

/-- The settings in a file. -/
def load (files : String → Option String) (path : String) : Except StartFault NodeSettings :=
  match files path with
  | none => .error (.unreadable path)
  | some text =>
    match ofToml? text with
    | some s => .ok s
    | none => .error (.malformed path)

/-- The settings of a run: those of its file, or the standard ones, with what the
options set instead, if a network can run with them. -/
def resolve (files : String → Option String) (o : RunOptions) : Except StartFault NodeSettings := do
  let base ← match o.config with
    | some path => load files path
    | none => .ok standard
  let s := base.override o.overrides
  match s.validate with
  | .ok _ => return s
  | .error why => .error (.settings why)

/-- Settings whose log can be filtered and whose metrics page can be served. -/
def prepare (s : NodeSettings) : Except StartFault Unit :=
  if !LogFilter.isValid s.logging.directives then .error (.filter s.logging.directives)
  else if s.metrics.enabled then
    (checkAddress s.metrics.address).mapError (.address s.metrics.address)
  else .ok ()

end NodeSettings

/-- What a command comes to. -/
inductive CommandOutcome where
  | exit (e : Exit)
  | start (s : NodeSettings)

def Interruption.exit : Interruption → Exit
  | .help topic long => ⟨0, topic.helpText long, ""⟩
  | .versionOf topic => ⟨0, topic.versionText, ""⟩
  | .fault .noCommand => ⟨2, "", Topic.program.helpText false⟩
  | .fault why => ⟨2, "", "error: " ++ why.message ++ "\n\nFor more information, try '--help'.\n"⟩

namespace Command

def versionReport : String :=
  Topic.programName ++ " " ++ Topic.packageVersion ++ "\nprotocol    " ++ protocolVersion
    ++ "\nrustc       unknown\n"

/-- Performs the command that the arguments name. -/
def execute (files : String → Option String) (args : List String) : CommandOutcome :=
  match parse args with
  | .error i => .exit i.exit
  | .ok .version => .exit ⟨0, versionReport, ""⟩
  | .ok (.run o) =>
    match NodeSettings.resolve files o with
    | .error f => .exit f.exit
    | .ok s =>
      match s.prepare with
      | .error f => .exit f.exit
      | .ok _ => .start s

end Command

end StakeConsensus
