import StakeConsensus.Role
import StakeConsensus.Schedule.Timing

/-!
# Leader rotation

The leader of a turn is read off the validator list: turn zero belongs to the
validator after the leader of the parent block, and each later turn to the next
one around the list. Broadcast heights belong to the broadcast account whatever
the turn.
-/

namespace StakeConsensus

/-- Every `interval` heights, counted from `last`, is a broadcast height; an
interval of zero means none is. -/
structure BroadcastInterval where
  interval : UInt64
  last : UInt64
deriving DecidableEq, Inhabited

def BroadcastInterval.isBroadcast (b : BroadcastInterval) (number : UInt64) : Bool :=
  if b.interval = 0 || number < b.last then false else (number - b.last) % b.interval = 0

/-- Part of the chain state that the schedule is read from. -/
inductive StatePart where
  | topology
  | specialAccounts
  | timing
  | broadcastInterval
deriving DecidableEq, Inhabited

def StatePart.display : StatePart → String
  | topology => "topology graph"
  | specialAccounts => "special accounts"
  | timing => "leader time config"
  | broadcastInterval => "broadcast interval"

/-- Why there is no leader to name. -/
inductive LookupFault where
  | noValidators (number : UInt64)
  | notAnalyzed
  | noTimer
  | zeroReelection
deriving DecidableEq

def LookupFault.message : LookupFault → String
  | noValidators n => "no validators for height " ++ toString n
  | notAnalyzed => "parent state not analyzed"
  | noTimer => "turn timer not configured"
  | zeroReelection => "reelection turn 0 cannot be confirmed"

inductive ScheduleError where
  | missing (part : StatePart)
  | invalidTiming (field : TimingField) (value : Int)
  | lookup (why : LookupFault)
  | overflow
deriving DecidableEq

def ScheduleError.message : ScheduleError → String
  | missing part => "missing consensus config in state: " ++ part.display
  | invalidTiming field value =>
    "invalid leader time config: " ++ field.display ++ " = " ++ toString value
  | lookup why => "leader lookup failed: " ++ why.message
  | overflow => Overflow.overflow.message

/-- A timing all of whose durations are positive. -/
def TurnTiming.validate (t : TurnTiming) : Except ScheduleError Unit :=
  match t.firstInvalid with
  | some (field, value) => .error (.invalidTiming field value)
  | none => .ok ()

/-- Swaps the timing for another one if that is valid; one that is refused changes nothing. -/
def TurnTimer.configure (t : TurnTimer) (timing : TurnTiming) :
    TurnTimer × Except ScheduleError Unit :=
  match timing.validate with
  | .ok _ => (t.setTiming timing, .ok ())
  | .error e => (t, .error e)

/-- The leader of a turn, for validators in the order of the snapshot. -/
def leaderForTurn (validators : List Address) (parentLeader : Address) (number : UInt64)
    (broadcast : Address) (turn : Nat) (interval : BroadcastInterval) :
    Except ScheduleError Address :=
  if interval.isBroadcast number then .ok broadcast
  else if h : 0 < validators.length then
    let base := match validators.idxOf? parentLeader with
      | some i => i + 1
      | none => 0
    .ok (validators.get ⟨(base + turn) % validators.length, Nat.mod_lt _ h⟩)
  else .error (.lookup (.noValidators number))

end StakeConsensus
