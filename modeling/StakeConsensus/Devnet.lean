import StakeConsensus.Clock
import StakeConsensus.Network
import StakeConsensus.Node

/-!
# A network of nodes in virtual time

Several nodes share a network, a pool and a clock. Each validator has a replica of
the chain, which outlives the nodes that run on it. Nothing but the passing of time
takes time: at one moment, the nodes whose clock ticks react first, and then
messages and events are worked off until nothing is left to do.
-/

namespace StakeConsensus

/-- A node that was started. -/
structure Member where
  /-- The number of its validator. -/
  index : Nat
  node : Node
  signer : Signer
  verifier : Verifier ChainState
  activity : Activity
  /-- Events it has not seen yet, oldest first. -/
  events : List Event
  requests : Sender ProposalRequest
  /-- When the clock ticks next. -/
  nextTick : Nat
  /-- Whether the inbox of its account is its own: it goes to the member of the account
  that was started last. -/
  listening : Bool
  /-- Whether it has not begun to work. -/
  fresh : Bool
  /-- Whether it was stopped; only what was released goes on then. -/
  stopped : Bool
  /-- Whether its events are kept. -/
  observed : Bool

structure Devnet where
  keypairs : List Keypair
  /-- The replicas, by validator. -/
  chains : List Chain
  quorum : StakeQuorum
  settings : VerifierSettings
  maxBlockTxs : Nat
  fetchDelay : Nat
  /-- Milliseconds between clock ticks of a node. -/
  period : Nat
  clock : Clock
  pool : TransactionPool
  network : Network
  members : List Member
  /-- Events of the observed nodes. -/
  log : List Event
  now : Nat

namespace Devnet

/-- Clock ticks come at least a second apart. -/
def tickPeriod (timing : TurnTiming) : Nat := max 1 timing.interval.toNat * 1000

/-- A network of validators none of which runs. -/
def new (genesis : Genesis) (keypairs : List Keypair) (quorum : StakeQuorum) (clock : Clock)
    (settings : VerifierSettings) (maxBlockTxs fetchDelay : Nat) : Devnet where
  keypairs
  chains := keypairs.map fun _ => .ofGenesis genesis
  quorum
  settings
  maxBlockTxs
  fetchDelay
  period := tickPeriod genesis.timing
  clock
  pool := .empty
  network := .empty
  members := []
  log := []
  now := 0

def reading (d : Devnet) : Int := d.clock.read d.now

/-- What the verification of a member depends on. -/
def surroundings (d : Devnet) (m : Member) (chain : Chain) : Surroundings ChainState where
  collaborators := {
    backend := chain.backend
    signer := m.signer
    quorum := .ofStakes d.quorum
    topology := .permissive ChainState
    executor := .ok ()
    order := .ascending }
  source := d.pool.source d.fetchDelay
  settings := d.settings

/-- The roles of a node in the network. -/
def nodeRoles : RoleSet := (RoleSet.single .validator).union (.single .miner)

/-- Starts a node of a validator, and says whether there is such a validator. -/
def start (d : Devnet) (index : Nat) (observed : Bool) : Devnet × Bool :=
  match d.keypairs[index]?, d.chains[index]? with
  | some key, some chain =>
    ({ d with
        network := d.network.join key.address nodeRoles
        members := d.members.map (fun m => { m with listening := m.listening && m.index != index })
          ++ [{
          index
          node := ⟨key.address, d.maxBlockTxs, chain, .empty, none⟩
          signer := .ofKeypair key
          verifier := .new .empty 0
          activity := .none
          events := []
          requests := .idle
          nextTick := d.now
          listening := true
          fresh := true
          stopped := false
          observed }] }, true)
  | _, _ => (d, false)

/-- Publishes events of a member. -/
def publish (d : Devnet) (m : Member) (events : List Event) : Devnet × Member :=
  ({ d with log := if m.observed then d.log ++ events else d.log },
    { m with events := m.events ++ events })

/-- Does what a node wants done. -/
def perform (s : Devnet × Member) : NodeAction → Devnet × Member
  | .verify i => (s.1, { s.2 with verifier := s.2.verifier.push i })
  | .publish e => s.1.publish s.2 [e]
  | .reply peer m =>
    ({ s.1 with network := (s.1.network.send s.2.node.account peer m).1 }, s.2)
  | .requests c => (s.1, { s.2 with requests := s.2.requests.apply true s.1.now c })

/-- A reaction of a member's node to the present replica of its validator. -/
def react (f : Reaction → Reaction) (s : Devnet × Member) : Devnet × Member :=
  match s.1.chains[s.2.index]? with
  | none => s
  | some chain =>
    let r := f ⟨{ s.2.node with chain }, s.1.pool, []⟩
    r.actions.foldl perform
      ({ s.1 with pool := r.pool, chains := s.1.chains.set s.2.index r.node.chain },
        { s.2 with node := r.node })

/-- Sends messages in a member's name. -/
def broadcast (d : Devnet) (m : Member) (sent : List Outbound) : Devnet :=
  { d with
    network := sent.foldl (fun n o => n.broadcast m.node.account o.message o.roles) d.network }

/-- Lets the verification of a member work, and sends what is due. -/
def verify (s : Devnet × Member) : Devnet × Member :=
  let (d, m) := s
  match d.chains[m.index]? with
  | none => s
  | some chain =>
    let e := d.surroundings m chain
    let (verifier, activity) := Verifier.settle e d.now (m.verifier, m.activity)
    let (manager, activity) := Manager.poll e d.now (verifier.manager, activity)
    let (manager, activity) := Manager.send e d.now (manager, activity)
    let (requests, repeated) := m.requests.run d.settings.requestResend d.now
    let sent := activity.sent ++ repeated.map (Station.Outbound.ofAttempt .voters .request)
    let m := { m with
      verifier := { verifier with manager := manager.sweep }
      activity := { activity with events := [], sent := [] }
      requests }
    (d.broadcast m sent).publish m activity.events

/-- The messages that wait for a member, and the network without them. -/
def takeMessages (d : Devnet) (m : Member) : Network × List Message :=
  if m.listening then d.network.read m.node.account else (d.network, [])

/-- Lets a member's node react to its events and messages. -/
def attend (s : Devnet × Member) : Devnet × Member :=
  if s.2.stopped then s
  else
    let now := s.1.reading
    let s := s.2.events.foldl (fun s e => react (Reaction.onEvent e now) s)
      (s.1, { s.2 with events := [] })
    let (network, messages) := s.1.takeMessages s.2
    messages.foldl (fun s m => react (Reaction.onMessage m now) s) ({ s.1 with network }, s.2)

/-- Lets every member act, in the order in which they were started. -/
def act (f : Devnet × Member → Devnet × Member) (d : Devnet) : Devnet :=
  (List.range d.members.length).foldl (fun d i =>
    match d.members[i]? with
    | none => d
    | some m =>
      let (d, m) := f (d, m)
      { d with members := d.members.set i m }) d

/-- A member that has not begun schedules the next height. -/
def begin (s : Devnet × Member) : Devnet × Member :=
  if s.2.fresh && !s.2.stopped then
    react (Reaction.enterHeight s.1.reading) (s.1, { s.2 with fresh := false })
  else s

/-- A message from somebody to all nodes. They hear it at once; what their verification makes
of it is worked off as soon as time may pass. -/
def inject (d : Devnet) (sender : Address) (m : Message) : Devnet :=
  act attend (act begin { d with network := d.network.broadcast sender m nodeRoles })

/-- A node whose clock ticks reads it. -/
def tick (s : Devnet × Member) : Devnet × Member :=
  if s.2.stopped || s.1.now < s.2.nextTick then s
  else
    react (Reaction.onTick s.1.reading) (s.1, { s.2 with nextTick := s.2.nextTick + s.1.period })

/-- When something of the verification of a member is due. -/
def Member.nextWork (m : Member) : Option Nat :=
  (m.verifier.manager.nextPoll.toList ++ m.verifier.manager.nextSend.toList
    ++ m.requests.nextDue.toList).min?

/-- Whether a member has nothing to do at this moment. -/
def isQuiet (d : Devnet) (m : Member) : Bool :=
  (m.stopped || (m.events.isEmpty && (d.takeMessages m).2.isEmpty))
    && (m.verifier.stopped || m.verifier.inbox.isEmpty)
    && (match Member.nextWork m with
      | some due => d.now < due
      | none => true)

/-- Works messages and events off, in a number of rounds at most. -/
def workOff : Nat → Devnet → Devnet
  | 0, d => d
  | rounds + 1, d =>
    if d.members.all d.isQuiet then d else workOff rounds (act attend (act verify d))

/-- More rounds than messages are passed on at one moment. -/
def maxRounds : Nat := 1000000

/-- Everything that happens at this moment. -/
def settle (d : Devnet) : Devnet := workOff maxRounds (act tick (act begin d))

/-- The next moment at which something happens. -/
def nextMoment (d : Devnet) : Option Nat :=
  (d.members.filterMap fun m =>
    (((if m.stopped then [] else [m.nextTick]) ++ (Member.nextWork m).toList).min?)).min?

/-- Lets everything happen that is due by `limit`, at `moments` different moments at
most. -/
def runFor (limit : Nat) : Nat → Devnet → Devnet
  | 0, d => { d with now := limit }
  | moments + 1, d =>
    let d := d.settle
    match d.nextMoment with
    | none => { d with now := limit }
    | some moment =>
      if limit < moment then { d with now := limit }
      else runFor limit moments { d with now := max moment (d.now + 1) }

/-- Lets `ms` milliseconds pass. -/
def run (d : Devnet) (ms : Nat) : Devnet := d.runFor (d.now + ms) (ms + 1)

/-- Lets `ms` milliseconds pass, but not yet what happens at their end. -/
def runUpTo (d : Devnet) (ms : Nat) : Devnet :=
  match ms with
  | 0 => d
  | before + 1 => { d.run before with now := d.now + ms }

/-- Stops the nodes of a validator. -/
def stop (d : Devnet) (index : Nat) : Devnet :=
  (act (fun s =>
    if s.2.index = index ∧ !s.2.stopped then
      match s.1.chains[index]? with
      | none => s
      | some chain =>
        let (verifier, activity) :=
          Verifier.stop (s.1.surroundings s.2 chain) s.1.now (s.2.verifier, s.2.activity)
        ({ s.1 with network := s.1.network.leave s.2.node.account },
          { s.2 with verifier, activity, requests := .idle, stopped := true })
    else s) d).settle

def submit (d : Devnet) (txs : List Transaction) : Devnet :=
  { d with pool := txs.foldl (fun p t => (p.submit t).1) d.pool }

/-- The heights of the replicas on which a node runs. -/
def runningHeights (d : Devnet) : List UInt64 :=
  (d.members.filter fun m => !m.stopped).filterMap fun m => d.chains[m.index]?.map Chain.height

/-- Milliseconds between two looks at the heights. -/
def pollInterval : Nat := 25

/-- Whether some node runs, and all have reached a height. -/
def hasReached (d : Devnet) (height : UInt64) : Bool :=
  let heights := d.runningHeights
  !heights.isEmpty && heights.all (height ≤ ·)

/-- Looks at the heights again and again, in a number of turns at most. -/
def awaitFor (height : UInt64) (deadline : Nat) : Nat → Devnet → Devnet × Bool
  | 0, d => (d, d.hasReached height)
  | looks + 1, d =>
    if d.hasReached height then (d, true)
    else if deadline ≤ d.now then (d, false)
    else awaitFor height deadline looks (d.runUpTo pollInterval)

/-- Waits until all nodes have reached a height, for `ms` milliseconds at most. -/
def await (d : Devnet) (height : UInt64) (ms : Nat) : Devnet × Bool :=
  d.awaitFor height (d.now + ms) (ms / pollInterval + 2)

/-- The highest replica, the first one of them. -/
def highest (d : Devnet) : Option Chain :=
  d.chains.foldl (fun best c =>
    match best with
    | none => some c
    | some b => if b.height < c.height then some c else some b) none

/-- Whether all replicas have the blocks of the highest one, as far as they go. -/
def agrees (d : Devnet) : Bool :=
  match d.highest with
  | none => true
  | some top => d.chains.all fun c =>
      (c.blocks.zip top.blocks).all fun (a, b) => a.hash == b.hash

end Devnet

end StakeConsensus
