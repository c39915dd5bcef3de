import StakeConsensus.Command.Parser

/-!
# Help texts

A text names what it is about, how it is called, its commands and its options. The
long form of the program's own help puts what an option does below its name, with a
free line between options. The options of a run are written that way too, because
their names leave too little of the line, but without the free lines.
-/

namespace StakeConsensus

namespace RunOption

def help : RunOption → String
  | config => "Path to the node configuration file (TOML)"
  | validators => "Number of validators in the devnet"
  | heights => "Stop after this many finalized heights. 0 runs until Ctrl+C"
  | metricsAddress => "Listen address of the Prometheus endpoint"
  | offline => "Validators (by index) that are never started"
  | transfers => "Demo transfers submitted before the first height"
  | logFormat => "Log output format: pretty or json"

/-- The variable of the environment that may hold the value. -/
def environment? : RunOption → Option String
  | config => some "STRATA_CONFIG"
  | validators => some "STRATA_VALIDATORS"
  | heights => some "STRATA_HEIGHTS"
  | metricsAddress => some "STRATA_METRICS_ADDR"
  | offline | transfers => none
  | logFormat => some "STRATA_LOG_FORMAT"

/-- The option with its short name, in a column of its own, and what it does. -/
def helpLines (o : RunOption) : List String :=
  let short := match o.short? with
    | some c => String.ofList ['-', c, ',', ' ']
    | none => "    "
  let note := match o.environment? with
    | some v => " [env: " ++ v ++ "=]"
    | none => ""
  ["  " ++ short ++ o.display, "          " ++ o.help ++ note]

end RunOption

namespace Topic

def programName : String := "strata-node"

/-- The program, or the program and a command. -/
def path (between : String) : Topic → String
  | program => programName
  | run => programName ++ between ++ "run"
  | version => programName ++ between ++ "version"
  | help => programName ++ between ++ "help"

/-- What a command does. -/
def about : Topic → String
  | program => "Strata consensus devnet node"
  | run => "Start a local devnet"
  | version => "Print version information and exit"
  | help => "Print this message or the help of the given subcommand(s)"

def longAbout : String :=
  "Strata consensus devnet node.\n\nRuns several validators in one process on the "
    ++ "block-proposal consensus core and exposes Prometheus metrics."

def usage (t : Topic) : String :=
  "Usage: " ++ t.path " " ++ match t with
    | program => " <COMMAND>"
    | run => " [OPTIONS]"
    | version => ""
    | help => " [COMMAND]..."

def commandLines : List String :=
  ["Commands:", "  run      " ++ about run, "  version  " ++ about version,
    "  help     " ++ about help]

def flagLines (aboutHelp : String) : List String :=
  ["Options:", "  -h, --help     " ++ aboutHelp, "  -V, --version  Print version"]

def longFlagLines : List String :=
  ["Options:", "  -h, --help", "          Print help (see a summary with '-h')", "",
    "  -V, --version", "          Print version"]

def runOptionLines : List String :=
  "Options:" :: RunOption.all.flatMap RunOption.helpLines
    ++ ["  -h, --help", "          Print help", "  -V, --version", "          Print version"]

/-- The sections of a help text; only the program itself has a long form. -/
def sections (long : Bool) (t : Topic) : List (List String) :=
  match t with
  | program =>
    if long then [[longAbout], [t.usage], commandLines, longFlagLines]
    else [[t.about], [t.usage], commandLines, flagLines "Print help (see more with '--help')"]
  | run => [[t.about], [t.usage], runOptionLines]
  | version => [[t.about], [t.usage], flagLines "Print help"]
  | help =>
    [[t.about], [t.usage], ["Arguments:", "  [COMMAND]...  Print help for the subcommand(s)"]]

def helpText (long : Bool) (t : Topic) : String :=
  "\n\n".intercalate ((t.sections long).map fun lines => "\n".intercalate lines) ++ "\n"

/-- The version of the program. -/
def packageVersion : String := "0.1.0"

def versionText (t : Topic) : String := t.path "-" ++ " " ++ packageVersion ++ "\n"

end Topic

end StakeConsensus
