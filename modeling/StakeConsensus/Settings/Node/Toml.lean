import StakeConsensus.Settings.Node
import StakeConsensus.Settings.Verifier.Json
import StakeConsensus.Toml.Parser

/-!
# Settings from a TOML file

Every section may be missing, and so may every value of it, with one exception: the
timing is given as a whole or not at all. Values that no setting has are ignored.
-/

namespace StakeConsensus

open Read

/-- A choice among names. It may also be written as a table whose only name it is,
with nothing in it. -/
def Read.choice {α : Type} (choices : List α) (display : α → String) (j : Json) : Result α :=
  let named (name : String) : Result α :=
    match choices.find? fun a => display a == name with
    | some a => .ok a
    | none => .error ("there is no choice " ++ name)
  match j with
  | .string name => named name
  | .object [(name, .object [])] | .object [(name, .array [])] => named name
  | _ => .error "a name is expected"

def TurnTiming.read (arrays : RecordArrays) (j : Json) : Result TurnTiming := do
  let values ← record arrays (TurnTiming.default.fields.map fun e => e.1.display) j
  let seconds (i : Nat) : Result Int := do return (← needed values i i64).toInt
  return ⟨← seconds 0, ← seconds 1, ← seconds 2, ← seconds 3⟩

def MetricsSettings.read (arrays : RecordArrays) (j : Json) : Result MetricsSettings := do
  let values ← record arrays ["enabled", "listen_addr"] j
  return ⟨← part values 0 bool standard.enabled, ← part values 1 string standard.address⟩

/-- Levels by the names of the parts. -/
def LogSettings.readLevels : Json → Result (List (LogPart × String))
  | .object fields => fields.mapM fun (name, level) => do
    return (← choice LogPart.all LogPart.display (.string name), ← string level)
  | _ => .error "a table is expected"

def LogSettings.read (arrays : RecordArrays) (j : Json) : Result LogSettings := do
  let values ← record arrays ["level", "format", "components"] j
  return ⟨← part values 0 string standard.level,
    ← part values 1 (choice LogFormat.all LogFormat.display) standard.format,
    ← part values 2 readLevels standard.levels⟩

namespace NodeSettings

def fieldNames : List String :=
  ["validators", "stake", "heights", "offline", "transfers", "timing", "verifier", "metrics",
    "logging"]

def read (arrays : RecordArrays) (j : Json) : Result NodeSettings := do
  let values ← record arrays fieldNames j
  let s := standard
  return {
    validators := ← part values 0 u64 s.validators
    stake := ← part values 1 u64 s.stake
    heights := ← part values 2 u64 s.heights
    offline := ← part values 3 (listOf u64) s.offline
    transfers := ← part values 4 u64 s.transfers
    timing := ← part values 5 (TurnTiming.read arrays) s.timing
    verifier := ← part values 6 (VerifierSettings.read arrays) s.verifier
    metrics := ← part values 7 (MetricsSettings.read arrays) s.metrics
    logging := ← part values 8 (LogSettings.read arrays) s.logging }

/-- The settings that a file describes. -/
def ofToml? (text : String) : Option NodeSettings :=
  match (Toml.parse? text).map (read .atLeast) with
  | some (.ok s) => some s
  | _ => none

end NodeSettings

end StakeConsensus
