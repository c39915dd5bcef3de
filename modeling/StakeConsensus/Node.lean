import StakeConsensus.Chain.Basic
import StakeConsensus.Clock
import StakeConsensus.Schedule.Service
import StakeConsensus.TransactionPool
import StakeConsensus.Verifier

/-!
# The reactions of a node

A node keeps a replica of the chain and the schedule of the next height. It reacts
to messages of peers, to events of its own verification, and to the clock:

    request, vote ──► the verifier, or a reply if the height is on the chain already
    recovery ──► the verifier
    mining request, end of a height ──► commit ──► next height
    clock ──► reelection, confirmed at once; proposal that had to wait

A leader proposes no earlier than a second after the parent block. Every reaction
takes the clock reading and the pool, and returns what is to be done.
-/

namespace StakeConsensus

structure Node where
  account : Address
  /-- The most transactions that it packs into a block. -/
  maxTxs : Nat
  chain : Chain
  schedule : LeaderSchedule
  /-- The height and turn of its last proposal. -/
  proposed : Option (UInt64 × ConsensusTurn)

/-- What a node wants done. -/
inductive NodeAction where
  /-- Give an input to the verifier. -/
  | verify (i : VerifierInput)
  | publish (e : Event)
  | reply (peer : Address) (m : Message)
  /-- Send a proposal to the voters, or stop sending it. -/
  | requests (c : SenderCommand ProposalRequest)

/-- Seconds between a parent block and the earliest proposal on it. -/
def blockInterval : Int := 1

/-- The transfers that fit the gas limit of a block. -/
def maxTransfers : Nat := blockGasLimit.toNat / transferGas.toNat

/-- A node in the middle of a reaction. -/
structure Reaction where
  node : Node
  pool : TransactionPool
  /-- What is to be done, in order. -/
  actions : List NodeAction

namespace Reaction

def emit (a : NodeAction) (r : Reaction) : Reaction := { r with actions := r.actions ++ [a] }

/-- Runs an operation of the schedule and publishes the notice it returns. -/
def onSchedule {α : Type} (f : LeaderSchedule → LeaderSchedule.Reply α)
    (published : α → Option Notice) (r : Reaction) : Reaction × Except ScheduleError α :=
  let reply := f r.node.schedule
  let r := { r with node := { r.node with schedule := reply.schedule } }
  match reply.result with
  | .error e => (r, .error e)
  | .ok a =>
    match published a with
    | some n => (r.emit (.publish (.leaderChanged n)), .ok a)
    | none => (r, .ok a)

/-- The header of the proposal under a notice, at a clock reading. Its time is moved
into the window of the turn. -/
def template (node : Node) (n : Notice) (now : Int) : Header :=
  { Header.blank with
    height := n.number
    parent := n.parent
    time := Int64.ofInt (min (max now n.window.opens) (n.window.closes - 1))
    leader := node.account
    gasLimit := blockGasLimit
    version := protocolVersion
    topology := node.chain.head.header.topology
    turn := n.turn }

/-- Builds and announces a block for the turn of a notice, once per turn, on the head
that the notice speaks of, and not too early. -/
def propose (n : Notice) (now : Int) (r : Reaction) : Reaction :=
  let head := r.node.chain.head
  if r.node.proposed = some (n.number, n.turn) ∨ head.hash ≠ n.parent
      ∨ now < min (head.header.time.toInt + blockInterval) maxTime then r
  else
    let txs := r.pool.pending (min maxTransfers r.node.maxTxs)
    match r.node.chain.build (template r.node n now) txs with
    | .error _ => r
    | .ok built =>
      let request : ProposalRequest :=
        ⟨built.block.header, built.block.codes, n.turn, r.node.account⟩
      let r := { r with node := { r.node with proposed := some (n.number, n.turn) } }
      let r := r.emit (.verify (.localProposal ⟨request, txs, built.receipts⟩))
      r.emit (.requests (.start request))

/-- Passes a notice on, and proposes if it names this node as confirmed leader. -/
def onNotice (n : Notice) (now : Int) (r : Reaction) : Reaction :=
  let r := r.emit (.verify (.notice n))
  if n.confirmed && n.leader == r.node.account then r.propose n now else r

/-- Schedules the height after the head. -/
def enterHeight (now : Int) (r : Reaction) : Reaction :=
  let r := r.emit (.requests .close)
  let head := r.node.chain.head
  match r.node.chain.stateAt head.hash with
  | .error _ => r
  | .ok state =>
    match r.onSchedule (fun s => s.enterHeight head.header state.view) some with
    | (r, .error _) => r
    | (r, .ok n) =>
      let s := r.node.schedule
      (r.emit (.verify (.start n.number (s.roleOf r.node.account) s.validators))).onNotice n now

/-- Commits a final header; a block that joins the chain ends the height. -/
def commit (header : Header) (txs : List Transaction) (now : Int) (r : Reaction) : Reaction :=
  match r.node.chain.commit header txs with
  | (chain, .ok true) =>
    let r := { r with
      node := { r.node with chain }
      pool := r.pool.markIncluded (txs.map Transaction.code) header.height }
    (r.emit (.publish (.committed header.height header.hash txs.length))).enterHeight now
  | (_, .ok false) | (_, .error _) => r

/-- Sends the block of a height to a peer that still works on it, and says whether
the height is on the chain. -/
def answerCommitted (height : UInt64) (peer : Address) (r : Reaction) : Reaction × Bool :=
  if r.node.chain.height < height then (r, false)
  else
    match r.node.chain.blockAt height with
    | none => (r, true)
    | some block => (r.emit (.reply peer (.recovery ⟨block.header, r.node.account⟩)), true)

def onMessage (m : Message) (now : Int) (r : Reaction) : Reaction :=
  match m with
  | .request q =>
    match r.answerCommitted q.header.height q.sender with
    | (r, true) => r
    | (r, false) => r.emit (.verify (.request q))
  | .vote v =>
    match r.answerCommitted v.height v.sender with
    | (r, true) => r
    | (r, false) => r.emit (.verify (.vote v))
  | .recovery q => r.emit (.verify (.recovery q))
  | .mining q => r.commit q.header q.txs now
  | .posed _ => r

/-- Only the end of a height concerns a node. If a transaction is unknown, the block
has to come with a mining request. -/
def onEvent (e : Event) (now : Int) (r : Reaction) : Reaction :=
  match e with
  | .finished n =>
    let r := r.emit (.requests .close)
    match r.pool.getMany? n.codes with
    | none => r
    | some txs => r.commit n.header txs now
  | .leaderChanged _ | .stateFailure _ | .committed _ _ _ => r

/-- Proposes if the current notice asks this node to. -/
def proposeIfLeader (now : Int) (r : Reaction) : Reaction :=
  match r.node.schedule.notice with
  | .error _ => r
  | .ok n => if n.confirmed && n.leader == r.node.account then r.propose n now else r

/-- Moves the schedule to a clock reading. A reelection is confirmed as soon as it
is seen. -/
def onTick (now : Int) (r : Reaction) : Reaction :=
  match r.onSchedule (fun s => s.tick now) id with
  | (r, .error _) | (r, .ok none) => r.proposeIfLeader now
  | (r, .ok (some n)) =>
    let r := r.emit (.verify (.notice n))
    match r.onSchedule (fun s => s.confirm n.reelect) some with
    | (r, .ok confirmed) => r.onNotice confirmed now
    | (r, .error _) => r.proposeIfLeader now

end Reaction

end StakeConsensus
