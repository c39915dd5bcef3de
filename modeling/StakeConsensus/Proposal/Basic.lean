import StakeConsensus.Block.Basic
import StakeConsensus.Verdict
import StakeConsensus.Vote.Ledger

/-!
# Proposals

A candidate block of a height, together with all that a node learns about it: the
transactions it refers to, what executing them gave, the local verdict, and the
votes. A proposal is identified by its leader and turn.
-/

namespace StakeConsensus

/-- A leader's proposal as it travels between nodes. -/
structure ProposalRequest where
  header : Header
  codes : List Digest
  turn : ConsensusTurn
  /-- The peer that sent it; has to be the leader. -/
  sender : Address
deriving DecidableEq, Inhabited

def ProposalRequest.hash (r : ProposalRequest) : Digest := r.header.hash

/-- The local leader's proposal, with the results it already has. -/
structure LocalProposal where
  request : ProposalRequest
  txs : List Transaction
  receipts : List Receipt
deriving DecidableEq, Inhabited

/-- The leader of a proposal and the turn it proposed in. -/
structure ProposalKey where
  leader : Address
  turn : ConsensusTurn
deriving DecidableEq, Inhabited

namespace ProposalKey

instance : Ord ProposalKey := ⟨compareLex (compareOn leader) (compareOn turn)⟩

instance : Std.TransOrd ProposalKey :=
  inferInstanceAs (Std.TransCmp (compareLex (compareOn leader) (compareOn turn)))

instance : Std.LawfulEqOrd ProposalKey where
  eq_of_compare {a b} h := by
    obtain ⟨hl, ht⟩ := Ordering.then_eq_eq.1 h
    cases a; cases b
    simp_all [compareOn]

end ProposalKey

/-- A candidate block and its verification; `σ` is the state that execution
leaves behind. -/
structure Proposal (σ : Type) where
  header : Header
  codes : List Digest
  turn : ConsensusTurn
  origin : Address
  /-- The hash of the header. -/
  hash : Digest
  votes : VoteLedger
  txs : List Transaction
  receipts : List Receipt
  /-- The state after execution. -/
  state : Option σ
  /-- Absent while verification is under way. -/
  verdict : Option Verdict
  /-- Whether the quorum was reached. -/
  finished : Bool
  /-- Built by this node, and not verified again. -/
  isLocal : Bool

namespace Proposal

variable {σ : Type}

def ofRequest (r : ProposalRequest) : Proposal σ where
  header := r.header
  codes := r.codes
  turn := r.turn
  origin := r.sender
  hash := r.hash
  votes := .empty
  txs := []
  receipts := []
  state := none
  verdict := none
  finished := false
  isLocal := false

def ofLocal (l : LocalProposal) : Proposal σ :=
  { ofRequest l.request with txs := l.txs, receipts := l.receipts, isLocal := true }

def key (p : Proposal σ) : ProposalKey := ⟨p.header.leader, p.turn⟩

/-- Counts a vote, unless its signer has one. -/
def addVote (p : Proposal σ) (v : Vote) : Proposal σ := { p with votes := (p.votes.add v).1 }

/-- Takes over what an execution gave. -/
def executed (p : Proposal σ) (txs : List Transaction) (receipts : List Receipt) (state : σ) :
    Proposal σ :=
  { p with txs, receipts, state := some state }

end Proposal

end StakeConsensus
