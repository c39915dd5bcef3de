import StakeConsensus.Report.Basic
import StakeConsensus.Settings.Node

/-!
# Reports of settings
-/

namespace StakeConsensus

instance : ToJson ResendPolicy :=
  ⟨fun p => .object [("interval_ms", toJson p.interval), ("max_attempts", toJson p.maxAttempts)]⟩

instance : ToJson VerifierSettings :=
  ⟨fun s => .object [("txs_fetch_timeout_ms", toJson s.fetchTimeout),
    ("vote_resend", toJson s.voteResend), ("request_resend", toJson s.requestResend),
    ("mining_resend", toJson s.miningResend), ("posed_resend", toJson s.posedResend),
    ("unverified_votes_per_hash", toJson s.votesPerHash),
    ("unverified_vote_hashes", toJson s.voteHashes),
    ("max_proposals_per_height", toJson s.maxProposals)]⟩

/-- The report of settings that were read, or of settings that could not be. -/
def VerifierSettings.readJson : Option VerifierSettings → Json
  | some s => .object [("config", toJson s), ("fetch_ms", toJson s.fetchTimeout),
      ("vote_ms", toJson s.voteResend.interval)]
  | none => .object [("error", .string "config")]

instance : ToJson TurnTiming :=
  ⟨fun t => .object (t.fields.map fun e => (e.1.display, toJson e.2))⟩

instance : ToJson MetricsSettings :=
  ⟨fun s => .object [("enabled", toJson s.enabled), ("listen_addr", toJson s.address)]⟩

instance : ToJson LogFormat := ⟨fun f => toJson f.display⟩

instance : ToJson LogSettings :=
  ⟨fun s => .object [("level", toJson s.level), ("format", toJson s.format),
    ("components", .object (s.levels.map fun e => (e.1.display, toJson e.2)))]⟩

/-- The report of the filter that settings make, and of the parts that they know. -/
def LogSettings.filterJson (s : LogSettings) : Json :=
  .object [("directives", toJson s.directives), ("names", toJson (LogPart.all.map LogPart.display))]

instance : ToJson NodeSettings :=
  ⟨fun s => .object [("validators", toJson s.validators), ("stake", toJson s.stake),
    ("heights", toJson s.heights), ("offline", toJson s.offline),
    ("transfers", toJson s.transfers), ("timing", toJson s.timing),
    ("verifier", toJson s.verifier), ("metrics", toJson s.metrics),
    ("logging", toJson s.logging)]⟩

end StakeConsensus
