import StakeConsensus.Devnet
import StakeConsensus.Report.Block

/-!
# Reports of a network of nodes

What a run left behind: the blocks of the highest replica, what the observed nodes
announced, and the state of the head. Which signatures a header carries and how many
messages were sent hangs on the order of simultaneous work, so they are left out.
-/

namespace StakeConsensus

/-- What of a report hangs on the time of genesis. -/
inductive Digests where
  | shown
  | hidden
deriving DecidableEq

/-- Fields that are reported only where hashes can be compared. -/
def Digests.fields : Digests → List (String × Json) → List (String × Json)
  | shown, l => l
  | hidden, _ => []

def Block.outlineJson (digests : Digests) (b : Block) : Json :=
  .object ([("height", toJson b.header.height), ("leader", toJson b.header.leader),
    ("turn", toJson b.header.turn), ("time", toJson b.header.time), ("codes", toJson b.codes),
    ("gas", toJson b.header.gasUsed)]
      ++ digests.fields [("hash", toJson b.hash), ("state_root", toJson b.header.stateRoot)])

def ChainState.outlineJson (digests : Digests) (s : ChainState) : Json :=
  .object ([("accounts", .array (s.accounts.toList.map fun e =>
      .array [toJson e.1, toJson e.2.balance, toJson e.2.nonce])),
    ("uptime", toJson s.uptime.toList)]
      ++ digests.fields [("root", toJson s.root), ("matrix", toJson s.matrix)])

/-- What is kept of an event; the end of a height and a failure come when messages
happen to arrive, so they are not. -/
def Event.outlineJson : Event → Option Json
  | leaderChanged n => some (.object [("e", .string "leader"), ("number", toJson n.number),
      ("leader", toJson n.leader), ("next", toJson n.next), ("turn", toJson n.turn),
      ("reelect", toJson n.reelect), ("confirmed", toJson n.confirmed),
      ("begin", toJson n.window.opens), ("end", toJson n.window.closes)])
  | committed height _ txs => some (.object [("e", .string "committed"),
      ("height", toJson height), ("txs", toJson txs)])
  | finished _ | stateFailure _ => none

def Event.isFailure : Event → Bool
  | stateFailure _ => true
  | leaderChanged _ | finished _ | committed _ _ _ => false

namespace Devnet

/-- What a run left behind, with the heights at which transactions were included. -/
def outlineJson (digests : Digests) (submitted : List Digest) (d : Devnet) : List (String × Json) :=
  let top := match d.highest with
    | none => []
    | some c => [("blocks", .array (c.blocks.map (Block.outlineJson digests))),
        ("state", match c.stateAt c.head.hash with
          | .ok s => s.outlineJson digests
          | .error _ => .null)]
  [("agree", toJson d.agrees), ("observed", .array (d.log.filterMap Event.outlineJson)),
    ("pending", toJson d.pool.pendingSize), ("included", toJson (submitted.map d.pool.includedAt))]
      ++ top

def failures (d : Devnet) : Nat := (d.log.filter Event.isFailure).length

end Devnet

end StakeConsensus
