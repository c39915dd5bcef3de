import StakeConsensus.Arithmetic.Checked
import StakeConsensus.OrderedMap

/-!
# Turn windows

Clock time is cut into the windows of a consensus turn. The window of the
primary leader comes first; for turn zero it includes the time to mine the
parent block. Reelection windows of equal length follow it without gaps:

    opens                +pos            +reelect        +reelect
      |---- reelect 0 ----|-- reelect 1 --|-- reelect 2 --|-- ...

A window depends on the timing and on the recorded begin of its turn only, and a
recorded begin never moves back.
-/

namespace StakeConsensus

inductive TimingField where
  | parentMining
  | pos
  | reelect
  | interval
deriving DecidableEq, Inhabited

def TimingField.display : TimingField → String
  | parentMining => "parent_mining_time"
  | pos => "pos_out_time"
  | reelect => "reelect_out_time"
  | interval => "reelect_handle_interval"

/-- Durations in seconds. -/
structure TurnTiming where
  /-- What the leader of turn zero gets on top of its window. -/
  parentMining : Int
  /-- The window of a primary leader. -/
  pos : Int
  /-- The window of a reelection turn. -/
  reelect : Int
  /-- How often the clock is read. -/
  interval : Int
deriving DecidableEq, Inhabited

namespace TurnTiming

def fields (t : TurnTiming) : List (TimingField × Int) :=
  [(.parentMining, t.parentMining), (.pos, t.pos), (.reelect, t.reelect), (.interval, t.interval)]

/-- The first duration that is not positive. -/
def firstInvalid (t : TurnTiming) : Option (TimingField × Int) :=
  t.fields.find? fun e => e.2 ≤ 0

def IsValid (t : TurnTiming) : Prop :=
  0 < t.parentMining ∧ 0 < t.pos ∧ 0 < t.reelect ∧ 0 < t.interval

theorem firstInvalid_eq_none {t : TurnTiming} : t.firstInvalid = none ↔ t.IsValid := by
  simp [firstInvalid, fields, IsValid]

/-- The timing of a network that sets none. -/
def default : TurnTiming := ⟨20, 20, 40, 3⟩

end TurnTiming

/-- From `opens` on, up to `closes`. -/
structure Window where
  opens : Int
  closes : Int
deriving DecidableEq, Inhabited

/-- A time outside the window of the turn it claims. -/
structure TimeOutOfWindow where
  time : Int
  window : Window
deriving DecidableEq, Inhabited

def TimeOutOfWindow.message (e : TimeOutOfWindow) : String :=
  "time " ++ toString e.time ++ " outside turn window (" ++ toString e.window.opens ++ ", "
    ++ toString e.window.closes ++ ")"

inductive TurnPhase where
  /-- The window of the primary leader. -/
  | pos
  /-- Some reelection window. -/
  | reelect
deriving DecidableEq, Inhabited

/-- Where a time falls within a consensus turn. -/
structure TurnState where
  phase : TurnPhase
  /-- Seconds until the window closes. -/
  remaining : Int
  reelect : UInt32
deriving DecidableEq, Inhabited

/-- Why a time is not accepted. -/
inductive TimeFault where
  | outOfWindow (e : TimeOutOfWindow)
  | overflow
deriving DecidableEq

/-- The turn clock of a height. -/
structure TurnTimer where
  timing : TurnTiming
  begins : OrderedMap Nat Int

namespace TurnTimer

def start (timing : TurnTiming) : TurnTimer := ⟨timing, .empty⟩

/-- The recorded begin of a turn. -/
def begin? (t : TurnTimer) (turn : Nat) : Option Int := t.begins.get? turn

/-- Records the begin of a turn if that moves it forward, and says whether it did. -/
def setBegin (t : TurnTimer) (turn : Nat) (time : Int) : TurnTimer × Bool :=
  match t.begin? turn with
  | none => ({ t with begins := t.begins.insert turn time }, true)
  | some known =>
    if known < time then ({ t with begins := t.begins.insert turn time }, true) else (t, false)

/-- Swaps the timing and keeps the recorded begins. -/
def setTiming (t : TurnTimer) (timing : TurnTiming) : TurnTimer := { t with timing }

/-- A turn that was never recorded counts from zero. -/
def origin (t : TurnTimer) (turn : Nat) : Int := (t.begin? turn).getD 0

/-- The length of the primary leader's window. -/
def posLength (t : TurnTimer) (turn : Nat) : Except Overflow Int :=
  if turn = 0 then Checked.time (t.timing.pos + t.timing.parentMining) else .ok t.timing.pos

/-- The window of a reelection turn within a consensus turn. -/
def window (t : TurnTimer) (turn : Nat) (reelect : UInt32) : Except Overflow Window := do
  let origin := t.origin turn
  let pos ← t.posLength turn
  let first ← Checked.time (origin + pos)
  if reelect = 0 then return ⟨origin, first⟩
  let offset ← Checked.time ((reelect.toNat - 1 : Int) * t.timing.reelect)
  let opens ← Checked.time (first + offset)
  let closes ← Checked.time (opens + t.timing.reelect)
  return ⟨opens, closes⟩

/-- The phase, the time left and the reelection turn at `now`. -/
def stateAt (t : TurnTimer) (turn : Nat) (now : Int) : Except Overflow TurnState := do
  let origin := t.origin turn
  let pos ← t.posLength turn
  let elapsed ← Checked.time (now - origin)
  if elapsed < pos then
    let first ← Checked.time (origin + pos)
    return ⟨.pos, ← Checked.time (first - now), 0⟩
  let beyond ← Checked.time (elapsed - pos)
  let implied ← Checked.time (beyond / t.timing.reelect + 1)
  let first ← Checked.time (origin + pos)
  let span ← Checked.time (implied * t.timing.reelect)
  let closes ← Checked.time (first + span)
  let remaining ← Checked.time (closes - now)
  return ⟨.reelect, remaining, if implied < UInt32.size then implied.toNat.toUInt32 else
    (UInt32.size - 1).toUInt32⟩

/-- Accepts a time strictly inside the window of a turn. -/
def checkTime (t : TurnTimer) (turn : Nat) (reelect : UInt32) (time : Int) :
    Except TimeFault Unit :=
  match t.window turn reelect with
  | .error _ => .error .overflow
  | .ok w =>
    if time ≤ w.opens ∨ w.closes ≤ time then .error (.outOfWindow ⟨time, w⟩) else .ok ()

end TurnTimer

end StakeConsensus
