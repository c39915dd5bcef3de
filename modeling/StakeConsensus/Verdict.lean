import StakeConsensus.Block.Header
import StakeConsensus.Schedule.Timing

/-!
# Failures and verdicts

The causes for which a chain, a transaction source, a signer, the quorum rule or
the topology policy refuses, and the verdict of a node on a proposal. A proposal
is verified, or not endorsed for a reason that does not concern this node's own
state, or irreconcilable with it.
-/

namespace StakeConsensus

/-- What is wrong with a header as a successor of its parent. -/
inductive HeaderFault where
  | height (height parent : UInt64)
  | time (time parent : Int64)
  | gas (used limit : UInt64)
deriving DecidableEq

def HeaderFault.message : HeaderFault → String
  | height h p => "height " ++ toString h ++ " does not follow parent " ++ toString p
  | time t p => "time " ++ toString t.toInt ++ " precedes parent time " ++ toString p.toInt
  | gas used limit => "gas used " ++ toString used ++ " exceeds limit " ++ toString limit

inductive ExecutionFault where
  | gasLimit (limit : UInt64)
  /-- Executing a final block gave another one. -/
  | divergent (computed header : Digest)
deriving DecidableEq

def ExecutionFault.message : ExecutionFault → String
  | gasLimit limit => "block gas limit " ++ toString limit ++ " exceeded"
  | divergent computed header =>
    "local execution gives " ++ computed.short ++ ", finalized header is " ++ header.short

inductive BackendError where
  | unknownState (block : Digest)
  | invalidHeader (why : HeaderFault)
  | execution (why : ExecutionFault)
deriving DecidableEq

def BackendError.message : BackendError → String
  | unknownState block => "no state for block " ++ block.display
  | invalidHeader why => "invalid header: " ++ why.message
  | execution why => "execution failed: " ++ why.message

inductive FetchError where
  | missing (code : Digest)
  | timeout
  | stale (expected got : Nat)
  | source (text : String)
deriving DecidableEq

def FetchError.message : FetchError → String
  | missing code => "transaction " ++ code.display ++ " not available"
  | timeout => "transaction fetch timed out"
  | stale expected got =>
    "fetch result tagged " ++ toString got ++ ", expected " ++ toString expected
  | source text => "transaction source failure: " ++ text

/-- The signing service had no signature to give. -/
structure SignError where
  text : String
deriving DecidableEq

def SignError.message (e : SignError) : String := "signing failed: " ++ e.text

inductive QuorumError where
  | version (version : String)
  | insufficientStake (stake total : Nat)
  | unknownSigner (signer : Address)
deriving DecidableEq

def QuorumError.message : QuorumError → String
  | version v => "unsupported header version " ++ Quote.string v
  | insufficientStake stake total =>
    "insufficient stake: " ++ toString stake ++ " of " ++ toString total
  | unknownSigner signer => "signature from unknown validator " ++ signer.display

inductive TopologyError where
  | topology (text : String)
  | vrf (text : String)
  | election (text : String)
deriving DecidableEq

def TopologyError.message : TopologyError → String
  | topology text => "net topology mismatch: " ++ text
  | vrf text => "invalid vrf: " ++ text
  | election text => "election result mismatch: " ++ text

/-- Why the transactions of a proposal could not be had. -/
inductive FetchFailure where
  | failed (e : FetchError)
  /-- What came is not what the proposal refers to. -/
  | mismatch
  /-- There is nothing to run the fetch on. -/
  | noExecutor (why : String)
deriving DecidableEq

def FetchFailure.message : FetchFailure → String
  | failed e => e.message
  | mismatch => "fetched set does not match references"
  | noExecutor why => "no async runtime: " ++ why

/-- Why a proposal is not endorsed, without doubt about the local state. -/
inductive RecoverableReason where
  | invalidHeader (e : BackendError)
  | topologyMismatch (e : TopologyError)
  | versionMismatch (e : QuorumError)
  | invalidVrf (e : TopologyError)
  | fetchTimeout
  | fetchFailed (why : FetchFailure)
  | stateUnavailable (e : BackendError)
deriving DecidableEq

/-- The detail that comes with a reason, if any. -/
def RecoverableReason.detail : RecoverableReason → Option String
  | invalidHeader e => some e.message
  | topologyMismatch e => some e.message
  | versionMismatch e => some e.message
  | invalidVrf e => some e.message
  | fetchTimeout => none
  | fetchFailed why => some why.message
  | stateUnavailable e => some e.message

/-- A divergence that no retry can mend. -/
inductive StateFailure where
  | timeOutOfWindow (e : TimeOutOfWindow)
  | execution (e : BackendError)
  | electionMismatch (e : TopologyError)
  | hashMismatch (expected computed : Digest) (fields : List HeaderField)
deriving DecidableEq

def StateFailure.message : StateFailure → String
  | timeOutOfWindow e => e.message
  | execution e => "execution failed: " ++ e.message
  | electionMismatch e => "election result mismatch: " ++ e.message
  | hashMismatch expected computed fields =>
    "hash mismatch: expected " ++ expected.short ++ ", computed " ++ computed.short
      ++ ", fields [" ++ ", ".intercalate (fields.map HeaderField.display) ++ "]"

/-- The outcome of verifying a proposal locally. -/
inductive Verdict where
  | success
  | recoverable (reason : RecoverableReason)
  | stateFailure (reason : StateFailure)
deriving DecidableEq

def Verdict.isSuccess : Verdict → Bool
  | success => true
  | recoverable _ | stateFailure _ => false

end StakeConsensus
