/-!
# Settings of the log

Parts of a node log at levels of their own. A filter is a list of directives, each a
target with a level; later directives refine earlier ones, so the list goes from the
outside in:

    warn  ►  the consensus library  ►  single parts of the node

Whatever is outside the node and the library logs warnings only.
-/

namespace StakeConsensus

inductive LogFormat where
  /-- Lines for people. -/
  | pretty
  /-- One JSON object per line. -/
  | json
deriving DecidableEq, Inhabited

namespace LogFormat

def display : LogFormat → String
  | pretty => "pretty"
  | json => "json"

def all : List LogFormat := [pretty, json]

/-- The format that a text asks for in either case; an unknown text asks for lines.
Outside of ASCII no letter has one of these four as its lower case. -/
def ofText (s : String) : LogFormat :=
  if s.toLower = "json" then json else pretty

end LogFormat

/-- A part of the node that logs at a level of its own. -/
inductive LogPart where
  /-- Start, progress and the metrics page. -/
  | node
  | verifier
  | schedule
  | resend
  | devnet
deriving DecidableEq, Inhabited

namespace LogPart

def all : List LogPart := [node, verifier, schedule, resend, devnet]

def display : LogPart → String
  | node => "node"
  | verifier => "verifier"
  | schedule => "schedule"
  | resend => "resend"
  | devnet => "devnet"

/-- The targets that it logs under. -/
def targets : LogPart → List String
  | node => ["strata_node"]
  | verifier => ["strata_protocol::consensus::process", "strata_protocol::consensus::manager"]
  | schedule =>
    ["strata_protocol::consensus::timer", "strata_protocol::consensus::schedule",
      "strata_protocol::consensus::leader_service"]
  | resend => ["strata_protocol::consensus::resend"]
  | devnet => ["strata_protocol::devnet"]

end LogPart

structure LogSettings where
  /-- The level of every part without one of its own. -/
  level : String
  format : LogFormat
  levels : List (LogPart × String)
deriving DecidableEq, Inhabited

namespace LogSettings

def standard : LogSettings := ⟨"info", .pretty, []⟩

def levelOf (s : LogSettings) (p : LogPart) : String := (s.levels.lookup p).getD s.level

def directives (s : LogSettings) : String :=
  ",".intercalate (["warn", "strata_protocol=" ++ s.level] ++ LogPart.all.flatMap fun p =>
    p.targets.map fun target => target ++ "=" ++ s.levelOf p)

end LogSettings

/-! ### The grammar of filters -/

namespace LogFilter

def levelNames : List String := ["trace", "debug", "info", "warn", "error", "off"]

/-- A level by name, in either case, or by number. -/
def isLevel (cs : List Char) : Bool :=
  match cs with
  | [c] => '0' ≤ c && c ≤ '5'
  | _ => levelNames.contains (String.ofList (cs.map Char.toLower))

/-- A letter of a target; every character outside of ASCII counts as one. -/
def isTargetChar (c : Char) : Bool :=
  c.isAlphanum || c = '_' || c = ':' || c = '-' || 128 ≤ c.toNat

/-- What follows a name or a span in brackets, and whether it was a name. -/
def afterPart (cs : List Char) : Option (Bool × List Char) :=
  match cs with
  | '[' :: rest =>
    match rest.dropWhile (· ≠ ']') with
    | ']' :: rest => some (false, rest)
    | _ => none
  | c :: _ => if isTargetChar c then some (true, cs.dropWhile isTargetChar) else none
  | [] => none

/-- Nothing, or a level after an equals sign, which may be left out. -/
def isAssignment : List Char → Bool
  | [] => true
  | '=' :: level => level.isEmpty || isLevel level
  | _ => false

/-- A level, or one or two names and spans with or without a level. -/
def isDirective (cs : List Char) : Bool :=
  isLevel cs ||
    match afterPart cs with
    | none => false
    | some (_, rest) =>
      isAssignment rest ||
        match afterPart rest with
        | some (_, rest) => isAssignment rest
        | none => false

/-- Whether all directives can be read; empty ones do not count. -/
def isValid (s : String) : Bool :=
  ((s.toList.splitOn ',').filter fun d => !d.isEmpty).all isDirective

end LogFilter

end StakeConsensus
