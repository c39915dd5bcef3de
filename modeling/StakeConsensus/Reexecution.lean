import StakeConsensus.Collaborator

/-!
# Re-execution

A remote proposal is rebuilt from its transactions on the state of its parent,
and the hashes are compared. The state root covers the auxiliary state, which
depends on the transaction root, so the block is finalized once before and once
after the auxiliary state is folded in. Whatever goes wrong is a state failure,
because the inputs are what the leader claims to have executed.
-/

namespace StakeConsensus

/-- A rebuilt block and the state it leaves behind. -/
structure Reexecuted (σ : Type) where
  block : Block
  receipts : List Receipt
  state : σ

variable {σ : Type}

/-- Uptime, transactions, commitments, auxiliary state, commitments. -/
def Backend.rebuild (b : Backend σ) (header : Header) (txs : List Transaction) (state : σ) :
    Except BackendError (Reexecuted σ) := do
  let state ← b.recordUptime state header
  let (header, state, receipts) ← b.applyTxs header state txs
  let (block, state) ← b.finalize header state txs receipts
  let state ← b.foldAuxiliary block state
  let (block, state) ← b.finalize block.header state txs receipts
  return ⟨block, receipts, state⟩

/-- Rebuilds `remote` on `state` and compares. -/
def reexecute (b : Backend σ) (topology : TopologyPolicy σ) (remote : Header)
    (txs : List Transaction) (state : σ) : Except StateFailure (Reexecuted σ) :=
  match b.rebuild { remote with gasUsed := 0, signatures := [] } txs state with
  | .error e => .error (.execution e)
  | .ok r =>
    match topology.verifyElection r.block.header r.state with
    | .error e => .error (.electionMismatch e)
    | .ok _ =>
      if r.block.hash = remote.hash then .ok r
      else .error (.hashMismatch remote.hash r.block.hash (remote.mismatches r.block.header))

end StakeConsensus
