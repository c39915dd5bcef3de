import StakeConsensus.Chain.Basic
import StakeConsensus.Schedule.Service
import StakeConsensus.TransactionPool
import StakeConsensus.Verifier

/-!
# A node on the bench

One node of which every part can be handled: its chain, its pool, its schedule and
some part of its verification, under a clock that stands still unless it is moved.
Collaborators can be given defects, to see what the verification makes of them.
-/

namespace StakeConsensus

/-- What a source does to the answers of the pool. -/
inductive SourceDefect where
  /-- Answers another question, always. -/
  | stale
  /-- Answers another question to the first two calls. -/
  | staleTwice
  /-- Leaves the last transaction out. -/
  | short
  | reversed
  | error
  | timeout
deriving DecidableEq, Inhabited

namespace SourceDefect

/-- The answer to another question. -/
def late (a : FetchAnswer) : FetchAnswer := { a with seq := a.seq + 1 }

/-- A source with the defect. One that fails does so at once. -/
def apply (s : TransactionSource) : SourceDefect → TransactionSource
  | stale => { s with answer := fun call codes seq => (s.answer call codes seq).map late }
  | staleTwice =>
    { s with answer := fun call codes seq =>
        (s.answer call codes seq).map fun a => if call < 2 then late a else a }
  | short =>
    { s with answer := fun call codes seq =>
        (s.answer call codes seq).map fun a => { a with txs := a.txs.dropLast } }
  | reversed =>
    { s with answer := fun call codes seq =>
        (s.answer call codes seq).map fun a => { a with txs := a.txs.reverse } }
  | error => ⟨fun _ => 0, fun _ _ _ => .error (.source "source down")⟩
  | timeout => ⟨fun _ => 0, fun _ _ _ => .error .timeout⟩

end SourceDefect

/-- A signer that has no key after a number of calls. -/
def Signer.limited (s : Signer) : Option Nat → Signer
  | none => s
  | some budget =>
    { s with sign := fun call hash parent =>
        if call < budget then s.sign call hash parent else .error ⟨"no key"⟩ }

/-- Checks that fail whatever they are given, with their texts. -/
structure PolicyDefects where
  topology : Option String
  vrf : Option String
  election : Option String

/-- A policy some of whose checks always fail. -/
def TopologyPolicy.spoil {σ : Type} (t : TopologyPolicy σ) (d : PolicyDefects) :
    TopologyPolicy σ where
  verifyTopology h v := match d.topology with
    | some text => .error (.topology text)
    | none => t.verifyTopology h v
  verifyVrf h := match d.vrf with
    | some text => .error (.vrf text)
    | none => t.verifyVrf h
  verifyElection h s := match d.election with
    | some text => .error (.election text)
    | none => t.verifyElection h s

/-- What the bench is set up with. -/
structure BenchSetup where
  genesis : Genesis
  keypair : Keypair
  /-- The calls after which the signer has no key. -/
  signBudget : Option Nat
  quorum : StakeQuorum
  settings : VerifierSettings
  /-- Milliseconds that the pool takes to answer. -/
  fetchDelay : Nat
  sourceDefect : Option SourceDefect
  policyDefects : PolicyDefects
  executor : Except String Unit

namespace BenchSetup

/-- What a verification on this chain and pool depends on. -/
def surroundings (b : BenchSetup) (chain : Chain) (pool : TransactionPool) :
    Surroundings ChainState where
  collaborators := {
    backend := chain.backend
    signer := (Signer.ofKeypair b.keypair).limited b.signBudget
    quorum := .ofStakes b.quorum
    topology := (TopologyPolicy.permissive ChainState).spoil b.policyDefects
    executor := b.executor
    order := .ascending }
  source :=
    let source := pool.source b.fetchDelay
    match b.sourceDefect with
    | some defect => defect.apply source
    | none => source
  settings := b.settings

end BenchSetup

/-- The part of the verification that is on the bench. -/
inductive Subject where
  | chainOnly
  /-- The process of one height. -/
  | process (height : UInt64) (m : Manager ChainState)
  | manager (m : Manager ChainState)
  | verifier (v : Verifier ChainState)

/-- A proposal as it was built or changed. -/
structure Draft where
  header : Header
  txs : List Transaction
  receipts : List Receipt
  codes : List Digest
deriving Inhabited

structure Bench where
  setup : BenchSetup
  chain : Chain
  pool : TransactionPool
  schedule : LeaderSchedule
  /-- The latest notice of the schedule. -/
  notice : Option Notice
  drafts : List (String × Draft)
  subject : Subject
  /-- Heights that the manager was asked about. -/
  touched : List UInt64
  now : Nat
  activity : Activity

namespace Bench

def surroundings (b : Bench) : Surroundings ChainState := b.setup.surroundings b.chain b.pool

def chainOnly (setup : BenchSetup) : Bench where
  setup
  chain := .ofGenesis setup.genesis
  pool := .empty
  schedule := .empty
  notice := none
  drafts := []
  subject := .chainOnly
  touched := []
  now := 0
  activity := .none

def ofProcess (setup : BenchSetup) (height : UInt64) : Bench :=
  { chainOnly setup with subject := .process height (Manager.empty.reach setup.settings height) }

def ofManager (setup : BenchSetup) : Bench := { chainOnly setup with subject := .manager .empty }

/-- A verifier whose manager has reached a height. -/
def ofVerifier (setup : BenchSetup) (height : UInt64) (inbox : Nat) : Bench :=
  let b := chainOnly setup
  let (m, activity) := Manager.raise b.surroundings 0 height (.empty, b.activity)
  { b with subject := .verifier (.new m inbox), activity }

def store (b : Bench) (name : String) (d : Draft) : Bench :=
  { b with drafts := (name, d) :: b.drafts }

/-- Time, leader and turn of the next block: those of the latest notice, or a second
after the head. -/
def nextSlot (b : Bench) : Except Overflow (Int64 × Address × ConsensusTurn) :=
  match b.notice with
  | some n => .ok (Int64.ofInt n.window.opens, n.leader, n.turn)
  | none => do
    let time ← Checked.time (b.chain.head.header.time.toInt + 1)
    return (Int64.ofInt time, .zero, .first)

/-- The header that the next block is built from. -/
def template (b : Bench) : Except Overflow Header := do
  let head := b.chain.head
  let height ← Checked.next b.chain.height
  let (time, leader, turn) ← b.nextSlot
  return { Header.blank with
    height
    parent := head.hash
    time
    leader
    gasLimit := blockGasLimit
    version := protocolVersion
    topology := head.header.topology
    turn }

def submit (b : Bench) (txs : List Transaction) : Bench × List Digest :=
  let (pool, codes) := txs.foldl (fun (acc : TransactionPool × List Digest) t =>
    let (p, c) := acc.1.submit t
    (p, acc.2 ++ [c])) (b.pool, [])
  ({ b with pool }, codes)

/-- Builds a proposal and keeps it under a name. -/
def build (b : Bench) (name : String) (template : Header) (txs : List Transaction) :
    Bench × Except BackendError (Draft × ChainState) :=
  match b.chain.build template txs with
  | .error e => (b, .error e)
  | .ok built =>
    let d : Draft := ⟨built.block.header, txs, built.receipts, built.block.codes⟩
    (b.store name d, .ok (d, built.state))

def commit (b : Bench) (h : Header) (txs : List Transaction) : Bench × Except BackendError Bool :=
  let (chain, r) := b.chain.commit h txs
  ({ b with chain }, r)

/-- Records what the schedule published. -/
def publish (b : Bench) (n : Option Notice) : Bench :=
  { b with
    notice := n <|> b.notice
    activity := { b.activity with
      events := b.activity.events ++ n.toList.map Event.leaderChanged } }

/-- An operation of the schedule that publishes the notice it returns. -/
def onSchedule (b : Bench) (f : LeaderSchedule → LeaderSchedule.Reply Notice) :
    Bench × Except ScheduleError Notice :=
  let r := f b.schedule
  ({ b with schedule := r.schedule }.publish r.result.toOption, r.result)

/-- Schedules the height after the head. -/
def enterHeight (b : Bench) (state : ChainState) : Bench × Except ScheduleError Notice :=
  b.onSchedule fun s => s.enterHeight b.chain.head.header state.view

def tick (b : Bench) (now : Int) : Bench × Except ScheduleError (Option Notice) :=
  let r := b.schedule.tick now
  ({ b with schedule := r.schedule }.publish r.result.toOption.join, r.result)

/-- The notice of the current turn, which becomes the latest one. -/
def current (b : Bench) : Bench × Except ScheduleError Notice :=
  let r := b.schedule.notice
  ({ b with notice := r.toOption <|> b.notice }, r)

/-- Remembers a height that the manager was asked about. -/
def touch (b : Bench) (height : UInt64) : Bench :=
  if b.touched.contains height then b else { b with touched := height :: b.touched }

/-- Gives an input to the subject; a verifier says whether its inbox took it. -/
def give (b : Bench) (i : VerifierInput) : Bench × Option Bool :=
  match b.subject with
  | .chainOnly => (b, none)
  | .process h m =>
    let (m, activity) := Manager.give b.surroundings b.now h i.toInput (m, b.activity)
    ({ b with subject := .process h m, activity }, none)
  | .manager m =>
    let (m, activity) := Manager.handle b.surroundings b.now i (m, b.activity)
    ({ b with subject := .manager m, activity }.touch i.height, none)
  | .verifier v =>
    if v.fed then
      let (v, taken) := v.offer i
      ({ b with subject := .verifier v }, some taken)
    else (b, none)

/-- The process that is asked about: of a manager the one of a height, which is made
if need be. -/
def process? (b : Bench) (height : UInt64) : Bench × Option (Verification ChainState) :=
  match b.subject with
  | .process h m => (b, m.process? h)
  | .manager m =>
    let m := m.reach b.setup.settings height
    ({ b with subject := .manager m }.touch height, m.process? height)
  | .chainOnly | .verifier _ => (b, none)

/-- Has the process asked about look for a quorum. -/
def seekQuorum (b : Bench) (height : UInt64) : Bench :=
  match b.subject with
  | .process h m =>
    let (m, activity) := Manager.give b.surroundings b.now h .quorum (m, b.activity)
    { b with subject := .process h m, activity }
  | .manager m =>
    let (m, activity) := Manager.give b.surroundings b.now height .quorum (m, b.activity)
    { b with subject := .manager m, activity }.touch height
  | .chainOnly | .verifier _ => b

/-- Closes the subject; a verifier loses its input. -/
def close (b : Bench) : Bench :=
  match b.subject with
  | .process h m =>
    let (m, activity) := Manager.give b.surroundings b.now h .close (m, b.activity)
    { b with subject := .process h m, activity }
  | .manager m =>
    let (m, activity) := Manager.closeAll b.surroundings b.now (m, b.activity)
    { b with subject := .manager m, activity, touched := [] }
  | .verifier v => { b with subject := .verifier v.hangUp }
  | .chainOnly => b

/-- Raises the current height of a manager. -/
def raise (b : Bench) (height : UInt64) : Bench :=
  match b.subject with
  | .manager m =>
    let (m, activity) := Manager.raise b.surroundings b.now height (m, b.activity)
    { b with subject := .manager m, activity }
  | _ => b

/-- Tells a verifier to stop, or to go on; `none` leaves it to itself. -/
def signal (b : Bench) (stop : Option Bool) : Bench × Bool :=
  match b.subject, stop with
  | .verifier v, none => ({ b with subject := .verifier v.unwatch }, true)
  | .verifier v, some stop =>
    let (v, heard) := v.signal stop
    ({ b with subject := .verifier v }, heard)
  | _, _ => (b, false)

/-- Lets `ms` milliseconds pass, and what is due happen. -/
def pass (b : Bench) (ms : Nat) : Bench :=
  let now := b.now + ms
  let b := match b.subject with
    | .chainOnly => b
    | .process h m =>
      let (m, activity) := Manager.advance b.surroundings now (m, b.activity)
      { b with subject := .process h m.sweep, activity }
    | .manager m =>
      let (m, activity) := Manager.advance b.surroundings now (m, b.activity)
      { b with subject := .manager m.sweep, activity }
    | .verifier v =>
      let (v, activity) := Verifier.settle b.surroundings b.now (v, b.activity)
      let (m, activity) := Manager.advance b.surroundings now (v.manager, activity)
      { b with subject := .verifier { v with manager := m.sweep }, activity }
  { b with now }

/-- Forgets events and messages; the calls stay counted. -/
def clearActivity (b : Bench) : Bench :=
  { b with activity := { b.activity with events := [], sent := [] } }

end Bench

end StakeConsensus
