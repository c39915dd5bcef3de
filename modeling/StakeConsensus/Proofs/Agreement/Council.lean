import Mathlib.Logic.Function.Basic
import StakeConsensus.Node
import StakeConsensus.Proofs.Verification.Interleaving
import StakeConsensus.Proofs.Verification.Ledger

/-!
# The validators of a height

All validators of a height start from the same chain and count votes by the same stakes.
Each has a replica: its node, the inputs on their way to its verification, and what the
verification and its tasks have been through. A replica enters the height, reads the
clock, sees a reelection confirmed, proposes when it leads, hears a message, or goes on
with an input or a task. These things happen one at a time and in any order.

What was sent once may be heard at any time afterwards, more than once, or never. So
messages may be late, out of order, repeated or lost. The chain does not grow: a replica
that has a final block leaves the height, and what it still says about the height is the
final header.
-/

namespace StakeConsensus

namespace Reaction

/-- Reads the clock and leaves a reelection that has begun to be confirmed. -/
def readClock (now : Int) (r : Reaction) : Reaction :=
  match r.onSchedule (fun s => s.tick now) id with
  | (r, .ok (some n)) => r.emit (.verify (.notice n))
  | (r, .ok none) | (r, .error _) => r

/-- Sees a reelection confirmed. -/
def seeReelection (reelect : UInt32) (now : Int) (r : Reaction) : Reaction :=
  match r.onSchedule (fun s => s.confirm reelect) some with
  | (r, .ok n) => r.onNotice n now
  | (r, .error _) => r

/-- A clock tick of a node that reads its clock twice: it moves its schedule to the one reading,
and proposes at the other. -/
def onTickAt (now later : Int) (r : Reaction) : Reaction :=
  match r.onSchedule (fun s => s.tick now) id with
  | (r, .error _) | (r, .ok none) => r.proposeIfLeader later
  | (r, .ok (some n)) =>
    let r := r.emit (.verify (.notice n))
    match r.onSchedule (fun s => s.confirm n.reelect) some with
    | (r, .ok confirmed) => r.onNotice confirmed later
    | (r, .error _) => r.proposeIfLeader later

theorem onTickAt_self (now : Int) (r : Reaction) : r.onTickAt now now = r.onTick now := rfl

/-- When the clock of a node ticks, the node reads it and may see a reelection confirmed
and propose. -/
theorem onTickAt_eq (now later : Int) (r : Reaction) :
    r.onTickAt now later = (r.readClock now).proposeIfLeader later ∨ ∃ reelect,
      r.onTickAt now later = (r.readClock now).seeReelection reelect later ∨
      r.onTickAt now later =
        ((r.readClock now).seeReelection reelect later).proposeIfLeader later := by
  unfold onTickAt readClock
  rcases r.onSchedule (fun s => s.tick now) id with ⟨r', e | n⟩
  · exact .inl rfl
  cases n with
  | none => exact .inl rfl
  | some n =>
      refine .inr ⟨n.reelect, ?_⟩
      dsimp only
      unfold seeReelection
      rcases (r'.emit (.verify (.notice n))).onSchedule (fun s => s.confirm n.reelect) some with
        ⟨r'', e | confirmed⟩
      · exact .inr rfl
      · exact .inl rfl

/-- What a reaction has put on its way to the verification. -/
def inputs (r : Reaction) : List VerifierInput :=
  r.actions.filterMap fun
    | .verify i => some i
    | _ => none

/-- The proposals that a reaction has announced. -/
def announced (r : Reaction) : List ProposalRequest :=
  r.actions.filterMap fun
    | .requests (.start q) => some q
    | _ => none

end Reaction

theorem VerifierInput.isPublic_toInput {σ : Type} (i : VerifierInput) :
    (i.toInput : Input σ).isPublic = true := by
  cases i <;> rfl

/-- What one validator has done in a height. -/
structure Replica where
  node : Node
  /-- Inputs on their way to the verification, oldest first. -/
  inbox : List VerifierInput
  /-- What its verification and the tasks have been through. -/
  actions : List (Action ChainState)
  /-- The proposals it has announced. -/
  announced : List ProposalRequest

namespace Replica

/-- A reaction of the node, which finds some transactions in the pool. -/
def react (f : Reaction → Reaction) (pool : TransactionPool) (r : Replica) : Replica :=
  let s := f ⟨r.node, pool, []⟩
  { r with
    node := s.node
    inbox := r.inbox ++ s.inputs
    announced := r.announced ++ s.announced }

/-- The verification and its tasks go on. -/
def work (action : Action ChainState) (r : Replica) : Replica :=
  { r with actions := r.actions ++ [action] }

end Replica

/-- What the validators of a height have in common, and what each has of its own: a
signing service, whose signatures the others accept, and settings. -/
structure Council where
  chain : Chain
  /-- The state after the head of the chain. -/
  state : ChainState
  /-- What the schedules of the height are looked up in. -/
  snapshot : Snapshot
  quorum : StakeQuorum
  check : SignatureCheck
  signer : Address → Signer
  settings : Address → VerifierSettings
  maxTxs : Address → Nat
  /-- The order in which each has its proposals. -/
  order : Address → SearchOrder
  known : chain.stateAt chain.head.hash = .ok state
  scheduled : Snapshot.ofParent chain.head.header state.topology state.broadcast state.interval =
    .ok snapshot
  distinct : snapshot.addresses.Nodup
  stakes : StakeQuorum.ofValidators snapshot.validators = .ok quorum
  address : ∀ a, (signer a).address = a
  verifies : ∀ a, (signer a).verify = check
  signs : ∀ a n hash parent signature, (signer a).sign n hash parent = .ok signature →
    check hash signature parent = (a, true)

namespace Council

variable (g : Council)

def height : UInt64 := g.snapshot.number

/-- What the verification of an account depends on. -/
def collaborators (a : Address) : Collaborators ChainState where
  backend := g.chain.backend
  signer := g.signer a
  quorum := .ofStakes g.quorum
  topology := .permissive ChainState
  executor := .ok ()
  order := g.order a

/-- A replica that has not entered the height. -/
def newcomer (a : Address) : Replica := ⟨⟨a, g.maxTxs a, g.chain, .empty, none⟩, [], [], []⟩

/-- The verification of a replica, with its tasks. -/
def verification (a : Address) (r : Replica) : Interleaving ChainState :=
  .run g.height (g.settings a) r.actions

/-- An input is given to the verification if it is for the height. -/
def take (a : Address) (i : VerifierInput) (now timeout : Nat) (r : Replica) : Replica :=
  if i.height = g.height then
    r.work (.give ⟨g.collaborators a, i.toInput⟩ i.isPublic_toInput now timeout)
  else r

/-- What a verification does without an input from its node: the tasks go on, a quorum is
looked for, the process is closed. -/
inductive Own (a : Address) : Action ChainState → Prop where
  | poll (place : Nat) (source : TransactionSource) (now calls : Nat) :
      Own a (.poll place source now calls)
  | check (place : Nat) : Own a (.check place)
  | execute (place : Nat) : Own a (.execute place (g.collaborators a))
  | report (place : Nat) : Own a (.report place (g.collaborators a))
  | quorum (now timeout : Nat) : Own a (.give ⟨g.collaborators a, .quorum⟩ rfl now timeout)
  | close (now timeout : Nat) : Own a (.give ⟨g.collaborators a, .close⟩ rfl now timeout)

/-- The messages that a replica has sent. Its final header may come from anybody who has
the block on the chain. -/
inductive Sends (a : Address) (r : Replica) : Message → Prop where
  | request {q : ProposalRequest} (announced : q ∈ r.announced) : Sends a r (.request q)
  | vote {v : VoteMessage} (cast : .votes (.start v) ∈ (g.verification a r).state.effects) :
      Sends a r (.vote v)
  | recovery {m : RecoveryMessage} {header : Header}
      (final : (g.verification a r).process.finalHeader = some header)
      (hash : m.header.hash = header.hash) (signatures : m.header.signatures = header.signatures) :
      Sends a r (.recovery m)

/-- What a replica may do next, if some messages have been sent by others. -/
inductive Acts (a : Address) (sent : Message → Prop) (r : Replica) : Replica → Prop where
  | enter (pool : TransactionPool) (now : Int) (outside : r.node.schedule.snapshot = none) :
      Acts a sent r (r.react (Reaction.enterHeight now) pool)
  | readClock (pool : TransactionPool) (now : Int) :
      Acts a sent r (r.react (Reaction.readClock now) pool)
  | seeReelection (pool : TransactionPool) (reelect : UInt32) (now : Int) :
      Acts a sent r (r.react (Reaction.seeReelection reelect now) pool)
  | propose (pool : TransactionPool) (now : Int) :
      Acts a sent r (r.react (Reaction.proposeIfLeader now) pool)
  | hear (pool : TransactionPool) (now : Int) {m : Message} (heard : sent m) :
      Acts a sent r (r.react (Reaction.onMessage m now) pool)
  | take {i : VerifierInput} {rest : List VerifierInput} (now timeout : Nat)
      (waiting : r.inbox = i :: rest) :
      Acts a sent r (g.take a i now timeout { r with inbox := rest })
  | work {action : Action ChainState} (own : g.Own a action) : Acts a sent r (r.work action)

/-- The replicas, by account. -/
abbrev Session := Address → Replica

/-- The messages that others than an account have sent. -/
def Sent (s : Session) (a : Address) (m : Message) : Prop :=
  ∃ b ∈ g.snapshot.addresses, b ≠ a ∧ g.Sends b (s b) m

/-- One validator does one thing. -/
inductive Moves (s : Session) : Session → Prop where
  | act {a : Address} {r : Replica} (member : a ∈ g.snapshot.addresses)
      (acts : g.Acts a (g.Sent s a) (s a) r) : Moves s (Function.update s a r)

/-- What may come about in the height. -/
def Reachable (s : Session) : Prop := Relation.ReflTransGen g.Moves g.newcomer s

/-- A validator has come to the end of the height with a block. -/
def Ends (s : Session) (a : Address) (hash : Digest) : Prop :=
  (g.verification a (s a)).process.phase = .final ∧
    (g.verification a (s a)).process.currentHash = some hash

end Council

end StakeConsensus
