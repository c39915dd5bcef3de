import StakeConsensus.Station

/-!
# The processes of a node

A manager keeps one station for each height that is not below the current one,
and makes it when the height is first spoken of. When the current height rises,
the processes below it are closed. What they had still to do is done: a final
height keeps sending its requests.
-/

namespace StakeConsensus

/-- What a node's verification can be given. -/
inductive VerifierInput where
  | start (height : UInt64) (role : Role) (validators : List Validator)
  | notice (n : Notice)
  | request (r : ProposalRequest)
  | localProposal (p : LocalProposal)
  | vote (v : VoteMessage)
  | recovery (m : RecoveryMessage)
deriving Inhabited

namespace VerifierInput

/-- The height that an input is meant for. -/
def height : VerifierInput → UInt64
  | start h _ _ => h
  | notice n => n.number
  | request r => r.header.height
  | localProposal p => p.request.header.height
  | vote v => v.height
  | recovery m => m.header.height

/-- The input as the process of its height takes it. -/
def toInput {σ : Type} : VerifierInput → Input σ
  | start _ role validators => .start role validators
  | notice n => .notice n
  | request r => .request r
  | localProposal p => .localProposal p
  | vote v => .vote v
  | recovery m => .recovery m

end VerifierInput

structure Manager (σ : Type) where
  /-- The current height. -/
  height : UInt64
  stations : OrderedMap UInt64 (Station σ)
  /-- Stations whose process was closed, with what they have still to do. -/
  retired : List (Station σ)

namespace Manager

variable {σ : Type}

def empty : Manager σ := ⟨0, .empty, []⟩

/-- The process of a height, if there is one. -/
def process? (m : Manager σ) (height : UInt64) : Option (Verification σ) :=
  (m.stations.get? height).map (·.process)

/-- Makes the station of a height that is not below the current one. -/
def reach (m : Manager σ) (settings : VerifierSettings) (height : UInt64) : Manager σ :=
  if height < m.height ∨ m.stations.contains height then m
  else { m with stations := m.stations.insert height (.new height settings) }

/-- Gives an input to the process of a height. -/
def give (e : Surroundings σ) (now : Nat) (height : UInt64) (i : Input σ)
    (m : Manager σ × Activity) : Manager σ × Activity :=
  let manager := m.1.reach e.settings height
  match manager.stations.get? height with
  | none => (manager, m.2)
  | some s =>
    let (s, activity) := Station.give e now i (s, m.2)
    ({ manager with stations := manager.stations.insert height s }, activity)

/-- Closes the processes whose height is not kept. -/
def retire (e : Surroundings σ) (now : Nat) (keep : UInt64 → Bool) (m : Manager σ × Activity) :
    Manager σ × Activity :=
  let leaving := (m.1.stations.filterKeys fun h => !keep h).values
  leaving.foldl (fun m s =>
      let (s, activity) := Station.give e now .close (s, m.2)
      ({ m.1 with retired := m.1.retired ++ [s] }, activity))
    ({ m.1 with stations := m.1.stations.filterKeys keep }, m.2)

/-- Raises the current height; it never falls. -/
def raise (e : Surroundings σ) (now : Nat) (height : UInt64) (m : Manager σ × Activity) :
    Manager σ × Activity :=
  if height ≤ m.1.height then m
  else retire e now (height ≤ ·) ({ m.1 with height }, m.2)

/-- Passes an input to the process of its height. Starting a height makes it the
current one. -/
def handle (e : Surroundings σ) (now : Nat) (i : VerifierInput) (m : Manager σ × Activity) :
    Manager σ × Activity :=
  let m := match i with
    | .start height _ _ => raise e now height m
    | _ => m
  give e now i.height i.toInput m

def closeAll (e : Surroundings σ) (now : Nat) (m : Manager σ × Activity) : Manager σ × Activity :=
  retire e now (fun _ => false) m

/-- Lets every station act, in the order of heights, closed ones last. -/
def act (f : Station σ × Activity → Station σ × Activity) (m : Manager σ × Activity) :
    Manager σ × Activity :=
  let m := m.1.stations.keys.foldl (fun m height =>
      match m.1.stations.get? height with
      | none => m
      | some s =>
        let (s, activity) := f (s, m.2)
        ({ m.1 with stations := m.1.stations.insert height s }, activity)) m
  m.1.retired.foldl (fun m s =>
      let (s, activity) := f (s, m.2)
      ({ m.1 with retired := m.1.retired ++ [s] }, activity))
    ({ m.1 with retired := [] }, m.2)

def stationList (m : Manager σ) : List (Station σ) := m.stations.values ++ m.retired

/-- When a verification is to be polled next. -/
def nextPoll (m : Manager σ) : Option Nat := (m.stationList.filterMap Station.nextPoll).min?

/-- When a payload is to be sent next. -/
def nextSend (m : Manager σ) : Option Nat := (m.stationList.filterMap Station.nextSend).min?

def poll (e : Surroundings σ) (now : Nat) (m : Manager σ × Activity) : Manager σ × Activity :=
  act (Station.poll e now) m

def send (e : Surroundings σ) (limit : Nat) (m : Manager σ × Activity) : Manager σ × Activity :=
  act (Station.send e limit) m

/-- Sends what is due earlier than a moment. -/
def sendBefore (e : Surroundings σ) (moment : Nat) (m : Manager σ × Activity) :
    Manager σ × Activity :=
  match moment with
  | 0 => m
  | limit + 1 => send e limit m

/-- Lets everything happen that is due by `limit`, at `moments` different moments
at most. -/
def advanceFor (e : Surroundings σ) (limit : Nat) :
    Nat → Manager σ × Activity → Manager σ × Activity
  | 0, m => send e limit m
  | moments + 1, m =>
    match m.1.nextPoll with
    | none => send e limit m
    | some due =>
      if limit < due then send e limit m
      else advanceFor e limit moments (poll e due (sendBefore e due m))

/-- Lets everything happen that is due by `limit`. A verification that was polled
waits for a later moment, so there are not more of them than milliseconds. -/
def advance (e : Surroundings σ) (limit : Nat) (m : Manager σ × Activity) : Manager σ × Activity :=
  advanceFor e limit (limit + 1) m

/-- Forgets closed stations that have nothing left to do. -/
def sweep (m : Manager σ) : Manager σ :=
  { m with retired := m.retired.filter fun s => s.nextPoll.isSome || s.nextSend.isSome }

end Manager

end StakeConsensus
