import StakeConsensus.OrderedMap
import StakeConsensus.Role
import StakeConsensus.Verdict
import StakeConsensus.Vote.Ledger

/-!
# The stake quorum

A block is final once valid votes carry strictly more than two thirds of the
total stake. Stake counts by account, so that the number of validators does not
matter.
-/

namespace StakeConsensus

/-- The stakes of a validator set. -/
structure StakeQuorum where
  stakes : OrderedMap Address UInt64
  total : Nat

namespace StakeQuorum

/-- Of entries for one account, the last counts. -/
def stakeTable (vs : List Validator) : OrderedMap Address UInt64 :=
  .ofList (vs.map fun v => (v.address, v.stake))

def ofValidators (vs : List Validator) : Except Overflow StakeQuorum :=
  (Checked.sum (stakeTable vs).values).map fun total => ⟨stakeTable vs, total⟩

/-- The smallest stake that reaches the quorum. -/
def threshold (q : StakeQuorum) : Except Overflow Nat :=
  (Checked.word (q.total * 2)).map fun twice => twice / 3 + 1

/-- The stake and the signatures of valid votes, in their order. -/
def tally (q : StakeQuorum) : List Vote → Nat → List Signature →
    Except QuorumError (Nat × List Signature)
  | [], stake, signatures => .ok (stake, signatures)
  | v :: rest, stake, signatures =>
    if v.valid then
      match q.stakes.get? v.signer with
      | none => .error (.unknownSigner v.signer)
      | some s => q.tally rest (saturatingAdd stake s.toNat) (signatures ++ [v.signature])
    else q.tally rest stake signatures

/-- The signatures of the valid votes, if their stake reaches the quorum. -/
def verify (q : StakeQuorum) (votes : List Vote) : Except QuorumError (List Signature) :=
  match q.tally votes 0 [] with
  | .error e => .error e
  | .ok (stake, signatures) =>
    if stake * 3 ≤ q.total * 2 then .error (.insufficientStake stake q.total) else .ok signatures

end StakeQuorum

/-- Headers of another version are refused. -/
def verifyVersion (h : Header) : Except QuorumError Unit :=
  if h.version = protocolVersion then .ok () else .error (.version h.version)

end StakeConsensus
