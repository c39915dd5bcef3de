import StakeConsensus.Command.Execution
import StakeConsensus.Metrics.Page
import StakeConsensus.Report.Settings

/-!
# Reports of the command line and of the metrics page
-/

namespace StakeConsensus

/-- The kind of what keeps arguments from being a command. -/
def Interruption.kind : Interruption → String
  | help _ _ => "DisplayHelp"
  | versionOf _ => "DisplayVersion"
  | fault .noCommand => "DisplayHelpOnMissingArgumentOrSubcommand"
  | fault (.unknownArgument _) => "UnknownArgument"
  | fault (.unknownCommand _) => "InvalidSubcommand"
  | fault (.missingValue _) => "InvalidValue"
  | fault (.badValue _ _) => "ValueValidation"
  | fault (.repeated _) => "ArgumentConflict"
  | fault (.unexpectedValue _ _) => "TooManyValues"

/-- The report of an error that is told by its kind alone. -/
def Json.errorKind (kind : String) : Json := .object [("error", .string kind)]

instance : ToJson RunOptions :=
  ⟨fun o => .object [("config", toJson o.config), ("validators", toJson o.overrides.validators),
    ("heights", toJson o.overrides.heights), ("metrics_addr", toJson o.overrides.metricsAddress),
    ("offline", toJson o.overrides.offline), ("transfers", toJson o.overrides.transfers),
    ("log_format", toJson o.overrides.logFormat)]⟩

/-- The report of the command that arguments name. -/
def Command.parseJson (args : List String) : Json :=
  match parse args with
  | .ok (.run o) => .object [("run", toJson o)]
  | .ok .version => .string "version"
  | .error i => .errorKind i.kind

/-- The report of settings, or of why there are none. -/
def NodeSettings.resultJson : Except StartFault NodeSettings → Json
  | .ok s => .object [("ok", toJson s)]
  | .error (.unreadable _) => .errorKind "read"
  | .error (.malformed _) => .errorKind "parse"
  | .error (.settings .overflow) => .overflow
  | .error f => .object [("error", .string "validate"),
      ("message", .string (": ".intercalate f.messages))]

/-- The report of the settings of a run with options, and with the text of a file if
there is one. -/
def NodeSettings.resolveJson (options : List String) (file : Option String) : Json :=
  match Command.parse ("run" :: options) with
  | .ok (.run o) =>
    let config := if file.isSome then some "" else o.config
    resultJson (resolve (fun _ => file) { o with config })
  | .ok .version => .null
  | .error i => .errorKind i.kind

/-- The report of how the program ends. What it writes counts if it ends well, and
what it complains of if it fails by itself. -/
instance : ToJson CommandOutcome :=
  ⟨fun
    | .start _ => .null
    | .exit e => .object [("code", toJson e.code),
        ("stdout", if e.code = 0 then toJson e.output else .null),
        ("stderr", if e.code = 1 then toJson e.errors else .null)]⟩

/-- The report of the counters: heights, failures, reelections, and the last height. -/
def Metrics.countersJson (m : Metrics) : Json :=
  toJson [m.finalized, m.failures, m.reelections, m.height]

instance : ToJson Response :=
  ⟨fun r => .object [("status", toJson r.status), ("type", toJson r.contentType),
    ("body", toJson r.body)]⟩

end StakeConsensus
