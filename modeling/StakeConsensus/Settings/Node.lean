import StakeConsensus.Schedule.Rotation
import StakeConsensus.Settings.Logging
import StakeConsensus.Settings.Verifier

/-!
# Settings of a local network

Settings come from a file, or are the standard ones; options of the command line
override single values. They are checked as a whole before a node starts: the
validators that do start have to be able to reach a quorum, which takes strictly
more than two thirds of them.
-/

namespace StakeConsensus

structure MetricsSettings where
  /-- Whether the metrics page is served. -/
  enabled : Bool
  address : String
deriving DecidableEq, Inhabited

def MetricsSettings.standard : MetricsSettings := ⟨true, "127.0.0.1:9742"⟩

structure NodeSettings where
  /-- The number of validators. -/
  validators : UInt64
  /-- The stake of every validator. -/
  stake : UInt64
  /-- Heights to run for; zero means without end. -/
  heights : UInt64
  /-- Validators that do not start. -/
  offline : List UInt64
  /-- Transfers that are submitted before the first height. -/
  transfers : UInt64
  timing : TurnTiming
  verifier : VerifierSettings
  metrics : MetricsSettings
  logging : LogSettings
deriving DecidableEq

/-- Values that the command line sets. -/
structure Overrides where
  validators : Option UInt64
  heights : Option UInt64
  metricsAddress : Option String
  /-- No validator means that nothing is set. -/
  offline : List UInt64
  transfers : Option UInt64
  logFormat : Option String
deriving DecidableEq, Inhabited

/-- Why a network cannot run with its settings. -/
inductive SettingsFault where
  | noValidators
  | noStake
  | unknownOffline (index validators : UInt64)
  | noQuorum (online : Nat) (validators : UInt64)
  | timing (why : ScheduleError)
  | overflow
deriving DecidableEq

/-- What is wrong, and below it its cause, if there is one. -/
def SettingsFault.messages : SettingsFault → List String
  | noValidators => ["at least one validator is required"]
  | noStake => ["validator stake must be positive"]
  | unknownOffline index validators =>
    ["offline validator " ++ toString index ++ " out of range (validators = "
      ++ toString validators ++ ")"]
  | noQuorum online validators =>
    [toString online ++ " of " ++ toString validators
      ++ " validators online cannot reach a two-thirds quorum"]
  | timing why => ["invalid [timing] section", why.message]
  | overflow => [Overflow.overflow.message]

namespace NodeSettings

def standard : NodeSettings where
  validators := 4
  stake := 100
  heights := 0
  offline := []
  transfers := 10
  timing := ⟨1, 2, 2, 1⟩
  verifier := .standard
  metrics := .standard
  logging := .standard

instance : Inhabited NodeSettings := ⟨standard⟩

def override (s : NodeSettings) (o : Overrides) : NodeSettings :=
  { s with
    validators := o.validators.getD s.validators
    heights := o.heights.getD s.heights
    metrics := { s.metrics with address := o.metricsAddress.getD s.metrics.address }
    offline := if o.offline.isEmpty then s.offline else o.offline
    transfers := o.transfers.getD s.transfers
    logging := { s.logging with
      format := (o.logFormat.map LogFormat.ofText).getD s.logging.format } }

/-- The validators that are counted as running. A validator that is listed twice is
subtracted twice. -/
def online (s : NodeSettings) : Nat :=
  s.validators.toNat - min s.offline.length s.validators.toNat

/-- Settings with which a network can run. -/
def validate (s : NodeSettings) : Except SettingsFault Unit :=
  if s.validators = 0 then .error .noValidators
  else if s.stake = 0 then .error .noStake
  else
    match s.offline.find? (s.validators ≤ ·) with
    | some index => .error (.unknownOffline index s.validators)
    | none =>
      match Checked.word (s.online * 3), Checked.word (s.validators.toNat * 2) with
      | .ok thrice, .ok twice =>
        if thrice ≤ twice then .error (.noQuorum s.online s.validators)
        else s.timing.validate.mapError .timing
      | _, _ => .error .overflow

end NodeSettings

end StakeConsensus
