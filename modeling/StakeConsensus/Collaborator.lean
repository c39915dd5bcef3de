import StakeConsensus.Block.Basic
import StakeConsensus.Proposal.Cache
import StakeConsensus.Quorum

/-!
# Collaborators

What a node asks of others: execution and storage, signatures, the quorum rule,
the policy on topology and elections. Each is a record of functions, so that the
rules of verification can be read and proved for any of them.
-/

namespace StakeConsensus

/-- The chain as a verifier sees it; `σ` is the state of a block. -/
structure Backend (σ : Type) where
  /-- The state after the block with the given hash. -/
  stateAt : Digest → Except BackendError σ
  /-- Whether a header may follow the chain. -/
  verifyHeader : Header → Except BackendError Unit
  recordUptime : σ → Header → Except BackendError σ
  /-- Executes transactions in order, counting the gas in the header. -/
  applyTxs : Header → σ → List Transaction → Except BackendError (Header × σ × List Receipt)
  /-- Fills in the commitments of a header. -/
  finalize : Header → σ → List Transaction → List Receipt → Except BackendError (Block × σ)
  /-- Folds the derived state of a block into its state. -/
  foldAuxiliary : Block → σ → Except BackendError σ

/-- A signing service. Its calls are numbered, for it may stop answering. -/
structure Signer where
  address : Address
  /-- Call number, block hash and parent hash. -/
  sign : Nat → Digest → Digest → Except SignError Signature
  /-- Who signed, and whether the signature is valid, for a block hash and its parent. -/
  verify : Digest → Signature → Digest → Address × Bool

/-- The version policy and the quorum rule. -/
structure QuorumRule where
  verifyVersion : Header → Except QuorumError Unit
  /-- The accepted signatures, if the votes reach the quorum for a block with
  the given parent. -/
  verifyVotes : List Vote → Digest → Except QuorumError (List Signature)

/-- Checks of topology, random value and election results. -/
structure TopologyPolicy (σ : Type) where
  verifyTopology : Header → List Vote → Except TopologyError Unit
  verifyVrf : Header → Except TopologyError Unit
  verifyElection : Header → σ → Except TopologyError Unit

/-- Everything a verification process needs, and what it leaves to its surroundings. -/
structure Collaborators (σ : Type) where
  backend : Backend σ
  signer : Signer
  quorum : QuorumRule
  topology : TopologyPolicy σ
  /-- Whether there is something to run tasks on, and if not, why. -/
  executor : Except String Unit
  /-- The order in which the process has its proposals, at the moment. -/
  order : SearchOrder

namespace Signer

/-- Signs with a key and never stops. -/
def ofKeypair (k : Keypair) : Signer where
  address := k.address
  sign _ hash parent := .ok (k.sign (signingMessage hash parent).toList)
  verify hash signature parent :=
    (signature.signer, signature.verify (signingMessage hash parent).toList)

end Signer

namespace QuorumRule

/-- More than two thirds of the stake, whatever the parent. -/
def ofStakes (q : StakeQuorum) : QuorumRule where
  verifyVersion := StakeConsensus.verifyVersion
  verifyVotes votes _ := q.verify votes

end QuorumRule

namespace TopologyPolicy

/-- Accepts any topology and random value. No elections are held, so a header
must not carry results. -/
def permissive (σ : Type) : TopologyPolicy σ where
  verifyTopology _ _ := .ok ()
  verifyVrf _ := .ok ()
  verifyElection h _ :=
    if h.elect.isEmpty then .ok ()
    else .error (.election ("unexpected election of " ++ toString h.elect.length ++ " accounts"))

end TopologyPolicy

end StakeConsensus
