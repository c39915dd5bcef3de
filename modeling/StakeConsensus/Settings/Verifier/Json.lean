import StakeConsensus.Json.Reader
import StakeConsensus.Settings.Verifier

/-!
# Verifier settings from JSON values

Settings are a record, in which a missing field keeps its standard value. A resend
policy has to be given as a whole, and null is no value.
-/

namespace StakeConsensus

open Read

namespace ResendPolicy

def read (arrays : RecordArrays) (j : Json) : Result ResendPolicy := do
  let values ← record arrays ["interval_ms", "max_attempts"] j
  return ⟨← needed values 0 u64, ← needed values 1 u32⟩

end ResendPolicy

namespace VerifierSettings

def fieldNames : List String :=
  ["txs_fetch_timeout_ms", "vote_resend", "request_resend", "mining_resend", "posed_resend",
    "unverified_votes_per_hash", "unverified_vote_hashes", "max_proposals_per_height"]

def read (arrays : RecordArrays) (j : Json) : Result VerifierSettings := do
  let values ← record arrays fieldNames j
  let policy (i : Nat) (default : ResendPolicy) : Result ResendPolicy :=
    part values i (ResendPolicy.read arrays) default
  let s := standard
  return {
    fetchTimeout := ← part values 0 u64 s.fetchTimeout
    voteResend := ← policy 1 s.voteResend
    requestResend := ← policy 2 s.requestResend
    miningResend := ← policy 3 s.miningResend
    posedResend := ← policy 4 s.posedResend
    votesPerHash := ← part values 5 u64 s.votesPerHash
    voteHashes := ← part values 6 u64 s.voteHashes
    maxProposals := ← part values 7 u64 s.maxProposals }

def ofJson : Json → Result VerifierSettings := read .exact

end VerifierSettings

end StakeConsensus
