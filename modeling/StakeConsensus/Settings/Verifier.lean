import StakeConsensus.Resend

/-!
# Settings of the verification

Local limits and intervals. Nodes may differ in them, because none has a part in
what the network agrees on.
-/

namespace StakeConsensus

structure VerifierSettings where
  /-- Milliseconds until a fetch of transactions is given up. -/
  fetchTimeout : UInt64
  voteResend : ResendPolicy
  requestResend : ResendPolicy
  miningResend : ResendPolicy
  posedResend : ResendPolicy
  /-- The most parked votes for one hash. -/
  votesPerHash : UInt64
  /-- The most hashes with parked votes. -/
  voteHashes : UInt64
  /-- The most remote proposals of a height. -/
  maxProposals : UInt64
deriving DecidableEq

namespace VerifierSettings

/-- Mining requests are repeated the most often, because a lost one stalls the
chain. -/
def standard : VerifierSettings where
  fetchTimeout := 5000
  voteResend := ⟨3000, 10⟩
  requestResend := ⟨3000, 10⟩
  miningResend := ⟨2000, 30⟩
  posedResend := ⟨5000, 10⟩
  votesPerHash := 64
  voteHashes := 32
  maxProposals := 64

instance : Inhabited VerifierSettings := ⟨standard⟩

end VerifierSettings

end StakeConsensus
