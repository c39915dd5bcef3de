import StakeConsensus.Fetch
import StakeConsensus.Verification.Step

/-!
# A process in time

A station carries out what a process wants done: it fetches and executes the
transactions of proposals, sends payloads again and again, and passes outcomes
back to the process. It is driven by the moments at which something is due; at
one moment, outcomes come before payloads.
-/

namespace StakeConsensus

/-- A message that was sent. -/
structure Outbound where
  /-- Milliseconds from the beginning. -/
  time : Nat
  message : Message
  /-- Whom it is for. -/
  roles : RoleSet

/-- What the verification of a node has done towards the outside. -/
structure Activity where
  /-- Calls of the signing service. -/
  signings : Nat
  /-- Calls of the transaction source. -/
  fetches : Nat
  /-- Published events, in order. -/
  events : List Event
  sent : List Outbound

namespace Activity

def none : Activity := ⟨0, 0, [], []⟩

instance : Inhabited Activity := ⟨none⟩

end Activity

/-- What a verification under way depends on. -/
structure Surroundings (σ : Type) where
  collaborators : Collaborators σ
  source : TransactionSource
  settings : VerifierSettings

/-- A verification under way. -/
structure VerificationTask where
  job : VerificationJob
  fetch : Fetch

namespace VerificationJob

variable {σ : Type}

/-- What a fetch has brought: the transactions the job refers to, or the verdict
that they could not be had. -/
def fetched (job : VerificationJob) :
    Except FetchError (List Transaction) → Except Verdict (List Transaction)
  | .error .timeout => .error (.recoverable .fetchTimeout)
  | .error e => .error (.recoverable (.fetchFailed (.failed e)))
  | .ok txs =>
    if txs.map Transaction.code = job.codes then .ok txs
    else .error (.recoverable (.fetchFailed .mismatch))

/-- Executes transactions on the state of the parent. -/
def execute (c : Collaborators σ) (job : VerificationJob) (txs : List Transaction) : Outcome σ :=
  match c.backend.stateAt job.header.parent with
  | .error e => .error (.recoverable (.stateUnavailable e))
  | .ok state =>
    match reexecute c.backend c.topology job.header txs state with
    | .error reason => .error (.stateFailure reason)
    | .ok r => .ok (r, txs)

/-- What a fetch leads to. Nothing is executed for a verification that was
superseded. -/
def conclude (c : Collaborators σ) (p : Verification σ) (job : VerificationJob)
    (r : Except FetchError (List Transaction)) : Option (Outcome σ) :=
  match job.fetched r with
  | .error verdict => some (.error verdict)
  | .ok txs => if p.isCurrent job.seq job.hash then some (job.execute c txs) else none

end VerificationJob

structure Station (σ : Type) where
  process : Verification σ
  tasks : List VerificationTask
  votes : Sender VoteMessage
  mining : Sender MiningRequest
  posed : Sender PosedRequest

namespace Station

variable {σ : Type}

def new (height : UInt64) (settings : VerifierSettings) : Station σ :=
  ⟨.new height settings, [], .idle, .idle, .idle⟩

/-- Carries out an effect at `now`. -/
def perform (e : Surroundings σ) (now : Nat) (s : Station σ × Activity) :
    Effect → Station σ × Activity
  | .publish event => (s.1, { s.2 with events := s.2.events ++ [event] })
  | .verify job =>
    let fetch := Fetch.start job.seq job.codes now e.settings.fetchTimeout.toNat
    ({ s.1 with tasks := s.1.tasks ++ [⟨job, fetch⟩] }, s.2)
  | .sign _ _ => s
  | .votes c => ({ s.1 with votes := s.1.votes.apply e.collaborators.executor.isOk now c }, s.2)
  | .mining c => ({ s.1 with mining := s.1.mining.apply e.collaborators.executor.isOk now c }, s.2)
  | .posed c => ({ s.1 with posed := s.1.posed.apply e.collaborators.executor.isOk now c }, s.2)

/-- Gives an input to the process at `now` and carries out what it wants. -/
def give (e : Surroundings σ) (now : Nat) (i : Input σ) (s : Station σ × Activity) :
    Station σ × Activity :=
  let step := s.1.process.step e.collaborators s.2.signings i
  step.effects.foldl (perform e now)
    ({ s.1 with process := step.process }, { s.2 with signings := step.signings })

/-- Polls a task of the station at `now`; the station holds it no longer. -/
def pollTask (e : Surroundings σ) (now : Nat) (s : Station σ × Activity) (t : VerificationTask) :
    Station σ × Activity :=
  if now < t.fetch.nextDue then ({ s.1 with tasks := s.1.tasks ++ [t] }, s.2)
  else
    let (poll, fetches) :=
      t.fetch.poll e.source (s.1.process.isFetching t.job.seq) now s.2.fetches
    let activity := { s.2 with fetches }
    match poll with
    | .pending fetch => ({ s.1 with tasks := s.1.tasks ++ [{ t with fetch }] }, activity)
    | .done r =>
      match t.job.conclude e.collaborators s.1.process r with
      | none => (s.1, activity)
      | some outcome => give e now (.complete t.job.seq t.job.hash outcome) (s.1, activity)

/-- Polls all tasks that are due at `now`. -/
def poll (e : Surroundings σ) (now : Nat) (s : Station σ × Activity) : Station σ × Activity :=
  s.1.tasks.foldl (pollTask e now) ({ s.1 with tasks := [] }, s.2)

/-- When a task is to be polled next. -/
def nextPoll (s : Station σ) : Option Nat := (s.tasks.map fun t => t.fetch.nextDue).min?

/-- When a payload is to be sent next. -/
def nextSend (s : Station σ) : Option Nat :=
  (s.votes.nextDue.toList ++ s.mining.nextDue.toList ++ s.posed.nextDue.toList).min?

def Outbound.ofAttempt {α : Type} (roles : RoleSet) (message : α → Message) (a : Attempt α) :
    Outbound :=
  ⟨a.time, message a.payload, roles⟩

/-- Sends the payloads that are due by `limit`: votes to the voters, mining requests
to the miners, forwarded proposals to the broadcast node. -/
def send (e : Surroundings σ) (limit : Nat) (s : Station σ × Activity) : Station σ × Activity :=
  let (votes, v) := s.1.votes.run e.settings.voteResend limit
  let (mining, m) := s.1.mining.run e.settings.miningResend limit
  let (posed, p) := s.1.posed.run e.settings.posedResend limit
  ({ s.1 with votes, mining, posed },
    { s.2 with
      sent := s.2.sent ++ v.map (Outbound.ofAttempt .voters .vote)
        ++ m.map (Outbound.ofAttempt (.single .miner) .mining)
        ++ p.map (Outbound.ofAttempt (.single .broadcast) .posed) })

end Station

end StakeConsensus
