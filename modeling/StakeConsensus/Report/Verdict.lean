import StakeConsensus.Report.Block
import StakeConsensus.Verdict

/-!
# Reports of failures and verdicts
-/

namespace StakeConsensus

instance : ToJson StateFailure :=
  ⟨fun f =>
    let rest := match f with
      | .timeOutOfWindow e => [("failure", .string "TimestampOutOfWindow"), ("time", toJson e.time),
          ("begin", toJson e.window.opens), ("end", toJson e.window.closes)]
      | .execution _ => [("failure", .string "Execution")]
      | .electionMismatch _ => [("failure", .string "ElectionMismatch")]
      | .hashMismatch expected computed fields => [("failure", .string "HashMismatch"),
          ("expected", toJson expected), ("computed", toJson computed), ("fields", toJson fields)]
    .object (rest ++ [("text", toJson f.message)])⟩

def RecoverableReason.kind : RecoverableReason → String
  | invalidHeader _ => "InvalidHeader"
  | topologyMismatch _ => "TopologyMismatch"
  | versionMismatch _ => "VersionMismatch"
  | invalidVrf _ => "InvalidVrf"
  | fetchTimeout => "FetchTimeout"
  | fetchFailed _ => "FetchFailed"
  | stateUnavailable _ => "StateUnavailable"

instance : ToJson Verdict :=
  ⟨fun
    | .success => .string "success"
    | .recoverable r => .object [("recoverable", toJson r.kind), ("text", toJson r.detail)]
    | .stateFailure f => toJson f⟩

instance : Failure BackendError where
  kind
    | .unknownState _ => "UnknownState"
    | .invalidHeader _ => "InvalidHeader"
    | .execution _ => "Execution"
  message := BackendError.message

instance : Failure QuorumError where
  kind
    | .version _ => "Version"
    | .insufficientStake _ _ => "InsufficientStake"
    | .unknownSigner _ => "UnknownSigner"
  message := QuorumError.message

instance : Failure TopologyError where
  kind
    | .topology _ => "Topology"
    | .vrf _ => "Vrf"
    | .election _ => "Election"
  message := TopologyError.message

instance : Failure FetchError where
  kind
    | .missing _ => "Missing"
    | .timeout => "Timeout"
    | .stale _ _ => "StaleSequence"
    | .source _ => "Source"
  message := FetchError.message

instance : Failure SignError := ⟨fun _ => "Sign", SignError.message⟩

end StakeConsensus
