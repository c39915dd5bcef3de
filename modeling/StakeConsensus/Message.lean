import StakeConsensus.Proposal.Basic
import StakeConsensus.Schedule.Basic
import StakeConsensus.Vote.Parked

/-!
# Messages and events

What nodes say to each other, and what the verification of a height reports to
the node it runs in.
-/

namespace StakeConsensus

/-- The signatures that a peer already has for a header, for a node that missed
the votes. -/
structure RecoveryMessage where
  /-- The header with its signatures. -/
  header : Header
  sender : Address
deriving DecidableEq, Inhabited

/-- A final header, handed over for sealing. -/
structure MiningRequest where
  header : Header
  txs : List Transaction
deriving DecidableEq, Inhabited

/-- A final proposal on its way to the broadcast node. -/
structure PosedRequest where
  header : Header
  codes : List Digest
  turn : ConsensusTurn
  /-- The validator that forwards it, and its signature. -/
  origin : Address
  signature : Signature
deriving DecidableEq, Inhabited

inductive Message where
  | request (r : ProposalRequest)
  | vote (v : VoteMessage)
  | recovery (r : RecoveryMessage)
  | mining (m : MiningRequest)
  | posed (p : PosedRequest)
deriving DecidableEq, Inhabited

inductive MessageKind where
  | request
  | vote
  | recovery
  | mining
  | posed
deriving DecidableEq, Inhabited

namespace MessageKind

def all : List MessageKind := [request, vote, recovery, mining, posed]

def display : MessageKind → String
  | request => "request"
  | vote => "vote"
  | recovery => "recovery"
  | mining => "mining"
  | posed => "posed"

end MessageKind

namespace Message

def kind : Message → MessageKind
  | request _ => .request
  | vote _ => .vote
  | recovery _ => .recovery
  | mining _ => .mining
  | posed _ => .posed

def height : Message → UInt64
  | request r => r.header.height
  | vote v => v.height
  | recovery r => r.header.height
  | mining m => m.header.height
  | posed p => p.header.height

end Message

/-- A height is final. -/
structure FinishedNotice where
  height : UInt64
  /-- The header with the accepted signatures. -/
  header : Header
  turn : ConsensusTurn
  codes : List Digest
  /-- Whether this node verified the block itself. -/
  verified : Bool
deriving DecidableEq, Inhabited

/-- A proposal that is irreconcilable with the local state. -/
structure FailureAlert where
  height : UInt64
  hash : Digest
  leader : Address
  reason : StateFailure
deriving DecidableEq

inductive Event where
  | leaderChanged (n : Notice)
  | finished (n : FinishedNotice)
  | stateFailure (a : FailureAlert)
  /-- A final block joined the local chain. -/
  | committed (height : UInt64) (hash : Digest) (txs : Nat)
deriving DecidableEq

end StakeConsensus
