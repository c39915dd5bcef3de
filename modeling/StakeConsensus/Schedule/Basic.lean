import StakeConsensus.Block.Header
import StakeConsensus.Schedule.Rotation

/-!
# The leader schedule of a height

The schedule is rebuilt from the parent block and its state, and then moves from
turn to turn. It keeps the leaders of the current turn, and of the reelection
turn while one runs, next to the snapshot they were looked up in. Every operation
returns the schedule it leaves behind, also when it fails.
-/

namespace StakeConsensus

/-- What the chain state says about consensus; a part may be absent. -/
structure StateView where
  topology : Option (List Validator)
  broadcast : Option Address
  timing : Option TurnTiming
  interval : Option BroadcastInterval

/-- Says who leads a turn, and in which window. -/
structure Notice where
  /-- The height that is scheduled. -/
  number : UInt64
  parent : Digest
  /-- The active leader: the candidate, while a reelection runs. -/
  leader : Address
  next : Address
  turn : ConsensusTurn
  reelect : UInt32
  /-- False while a candidate awaits confirmation. -/
  confirmed : Bool
  window : Window
deriving DecidableEq, Inhabited

/-- What a schedule is looked up in. -/
structure Snapshot where
  number : UInt64
  parentHash : Digest
  parentLeader : Address
  /-- The entries of role validator, in the order of the topology. -/
  validators : List Validator
  broadcast : Address
  interval : BroadcastInterval

namespace Snapshot

def addresses (s : Snapshot) : List Address := s.validators.map (·.address)

def leader (s : Snapshot) (turn : Nat) (interval : BroadcastInterval) :
    Except ScheduleError Address :=
  leaderForTurn s.addresses s.parentLeader s.number s.broadcast turn interval

/-- The leaders of a turn and of the turn after it. -/
def leaders (s : Snapshot) (turn : Nat) : Except ScheduleError (Address × Address) := do
  let leader ← s.leader turn s.interval
  let next ← s.leader (min (turn + 1) maxTurn) s.interval
  return (leader, next)

/-- The snapshot after `parent`, whose state is fully known. -/
def ofParent (parent : Header) (topology : List Validator) (broadcast : Address)
    (interval : BroadcastInterval) : Except Overflow Snapshot := do
  return {
    number := ← Checked.next parent.height
    parentHash := parent.hash
    parentLeader := parent.leader
    validators := topology.filter fun v => v.role = .validator
    broadcast
    interval }

end Snapshot

structure LeaderSchedule where
  snapshot : Option Snapshot
  timer : Option TurnTimer
  turn : ConsensusTurn
  reelect : UInt32
  leader : Address
  next : Address
  candidate : Option Address
  candidateNext : Option Address

namespace LeaderSchedule

/-- No parent seen yet. -/
def empty : LeaderSchedule where
  snapshot := none
  timer := none
  turn := .first
  reelect := 0
  leader := .zero
  next := .zero
  candidate := none
  candidateNext := none

instance : Inhabited LeaderSchedule := ⟨empty⟩

/-- A schedule and what the operation that led to it returned. -/
structure Reply (α : Type) where
  schedule : LeaderSchedule
  result : Except ScheduleError α

/-- Moves to a consensus turn and ends any reelection. -/
def setTurn (s : LeaderSchedule) (turn : ConsensusTurn) : Reply Unit :=
  match s.snapshot with
  | none => ⟨s, .error (.lookup .notAnalyzed)⟩
  | some snap =>
    match snap.leaders turn.total with
    | .error e => ⟨s, .error e⟩
    | .ok (leader, next) =>
      ⟨{ s with turn, leader, next, reelect := 0, candidate := none, candidateNext := none },
        .ok ()⟩

/-- Moves to a reelection turn of the current consensus turn; zero ends it. -/
def setReelect (s : LeaderSchedule) (reelect : UInt32) : Reply Unit :=
  if reelect = s.reelect then ⟨s, .ok ()⟩
  else if reelect = 0 then
    ⟨{ s with reelect := 0, candidate := none, candidateNext := none }, .ok ()⟩
  else
    match s.snapshot with
    | none => ⟨s, .error (.lookup .notAnalyzed)⟩
    | some snap =>
      match snap.leaders (min (s.turn.total + reelect.toNat) maxTurn) with
      | .error e => ⟨s, .error e⟩
      | .ok (leader, next) =>
        ⟨{ s with reelect, candidate := some leader, candidateNext := some next }, .ok ()⟩

/-- Whether the schedule already stands on the parent of a snapshot. -/
def standsOn (s : LeaderSchedule) (snap : Snapshot) : Bool :=
  s.snapshot.any fun old => old.number == snap.number && old.parentHash == snap.parentHash

/-- Rebuilds the schedule from a parent block and its state. A new height starts
at the first turn with a new timer; analyzing the same parent again keeps the
turn and the recorded begins. -/
def analyze (s : LeaderSchedule) (parent : Header) (state : StateView) : Reply Unit :=
  match state.topology, state.broadcast, state.timing, state.interval with
  | none, _, _, _ => ⟨s, .error (.missing .topology)⟩
  | some _, none, _, _ => ⟨s, .error (.missing .specialAccounts)⟩
  | some _, some _, none, _ => ⟨s, .error (.missing .timing)⟩
  | some _, some _, some _, none => ⟨s, .error (.missing .broadcastInterval)⟩
  | some topology, some broadcast, some timing, some interval =>
    match Snapshot.ofParent parent topology broadcast interval with
    | .error _ => ⟨s, .error .overflow⟩
    | .ok snap =>
      match timing.validate with
      | .error e => ⟨s, .error e⟩
      | .ok _ =>
        let kept := if s.standsOn snap then s.timer else none
        let s := match kept with
          | some timer => { s with timer := some (timer.setTiming timing) }
          | none => { s with timer := some (.start timing), turn := .first }
        { s with snapshot := some snap }.setTurn s.turn

/-- The leader of any turn under the analyzed parent. -/
def leaderAt (s : LeaderSchedule) (turn : Nat) (interval : BroadcastInterval) :
    Except ScheduleError Address :=
  match s.snapshot with
  | none => .error (.lookup .notAnalyzed)
  | some snap => snap.leader turn interval

/-- The notice that describes the current turn. -/
def notice (s : LeaderSchedule) : Except ScheduleError Notice :=
  match s.snapshot, s.timer with
  | none, _ => .error (.lookup .notAnalyzed)
  | some _, none => .error (.lookup .noTimer)
  | some snap, some timer =>
    match timer.window s.turn.total s.reelect with
    | .error _ => .error .overflow
    | .ok window =>
      let (leader, next) := match s.candidate with
        | some c => (c, s.candidateNext.getD c)
        | none => (s.leader, s.next)
      .ok {
        number := snap.number
        parent := snap.parentHash
        leader
        next
        turn := s.turn
        reelect := s.reelect
        confirmed := s.reelect = 0
        window }

def number (s : LeaderSchedule) : Option UInt64 := s.snapshot.map (·.number)

def validators (s : LeaderSchedule) : List Validator :=
  match s.snapshot with
  | some snap => snap.validators
  | none => []

end LeaderSchedule

end StakeConsensus
