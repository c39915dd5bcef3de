import StakeConsensus.Schedule.Basic

/-!
# Driving the schedule

Three things move a schedule: a new parent block starts its height at the first
turn, a clock reading moves it into a reelection turn, and a confirmed reelection
starts a new consensus turn that begins where the reelection window began. Each
success that changes the turn publishes the notice it returns.
-/

namespace StakeConsensus.LeaderSchedule

/-- Runs a step and, if it succeeds, publishes the notice of the new turn. -/
def publish (r : Reply Unit) : Reply Notice :=
  match r.result with
  | .error e => ⟨r.schedule, .error e⟩
  | .ok _ => ⟨r.schedule, r.schedule.notice⟩

/-- Records the begin of a turn, if there is a clock. -/
def recordBegin (s : LeaderSchedule) (turn : Nat) (time : Int) : LeaderSchedule :=
  { s with timer := s.timer.map fun t => (t.setBegin turn time).1 }

/-- Starts the height after `parent`. -/
def enterHeight (s : LeaderSchedule) (parent : Header) (state : StateView) : Reply Notice :=
  let r := s.analyze parent state
  match r.result with
  | .error e => ⟨r.schedule, .error e⟩
  | .ok _ =>
    let r := r.schedule.setTurn .first
    match r.result with
    | .error e => ⟨r.schedule, .error e⟩
    | .ok _ => publish ⟨r.schedule.recordBegin 0 parent.time.toInt, .ok ()⟩

/-- Moves into the reelection turn of `now`, if that is a later one. -/
def tick (s : LeaderSchedule) (now : Int) : Reply (Option Notice) :=
  match s.timer with
  | none => ⟨s, .ok none⟩
  | some timer =>
    match timer.stateAt s.turn.total now with
    | .error _ => ⟨s, .error .overflow⟩
    | .ok state =>
      if state.reelect ≤ s.reelect then ⟨s, .ok none⟩
      else
        let r := publish (s.setReelect state.reelect)
        ⟨r.schedule, r.result.map some⟩

/-- Starts the consensus turn of a confirmed reelection. -/
def confirm (s : LeaderSchedule) (reelect : UInt32) : Reply Notice :=
  if reelect = 0 then ⟨s, .error (.lookup .zeroReelection)⟩
  else
    match s.timer with
    | none => ⟨s, .error (.lookup .noTimer)⟩
    | some timer =>
      match timer.window s.turn.total reelect with
      | .error _ => ⟨s, .error .overflow⟩
      | .ok window =>
        let turn := s.turn.afterReelection reelect
        let r := s.setTurn turn
        match r.result with
        | .error e => ⟨r.schedule, .error e⟩
        | .ok _ => publish ⟨r.schedule.recordBegin turn.total window.opens, .ok ()⟩

/-- The role of an account at the scheduled height. -/
def roleOf (s : LeaderSchedule) (account : Address) : Role :=
  if s.validators.any fun v => v.address == account then .validator
  else if s.snapshot.any fun snap => snap.broadcast == account then .broadcast
  else .follower

end StakeConsensus.LeaderSchedule
