/-!
# Resending

A sender delivers its payload at least once: at the moment it is started, and
again after every interval, until it has made all its attempts or is closed. One
loop is attached to the sender at most. Starting again closes it; a detached loop
makes its remaining attempts whatever becomes of the sender.

Time is counted in milliseconds. What a loop sends up to some moment depends on
that moment only, not on how often it is asked.
-/

namespace StakeConsensus

structure ResendPolicy where
  /-- Milliseconds between attempts. -/
  interval : UInt64
  /-- Attempts in all, the first one included. -/
  maxAttempts : UInt32
deriving DecidableEq, Inhabited

/-- A loop that is still sending. -/
structure SendLoop (α : Type) where
  payload : α
  /-- Attempts made so far. -/
  made : Nat
  /-- When the loop goes on. -/
  due : Nat

/-- A payload that was sent. -/
structure Attempt (α : Type) where
  time : Nat
  payload : α
  /-- Counted from one. -/
  number : Nat

namespace SendLoop

variable {α : Type}

def start (payload : α) (now : Nat) : SendLoop α := ⟨payload, 0, now⟩

/-- The loop after everything due by `limit` was sent, and what was sent, with
`left` attempts left. -/
def runFor (interval limit : Nat) : Nat → SendLoop α → Option (SendLoop α) × List (Attempt α)
  | 0, l => (if l.due ≤ limit then none else some l, [])
  | left + 1, l =>
    if limit < l.due then (some l, [])
    else
      let attempt : Attempt α := ⟨l.due, l.payload, l.made + 1⟩
      if left = 0 then (none, [attempt])
      else
        let (rest, sent) := runFor interval limit left ⟨l.payload, l.made + 1, l.due + interval⟩
        (rest, attempt :: sent)

/-- Sends what is due by `limit`; a loop that has made its last attempt is gone. -/
def run (policy : ResendPolicy) (limit : Nat) (l : SendLoop α) :
    Option (SendLoop α) × List (Attempt α) :=
  l.runFor policy.interval.toNat limit (policy.maxAttempts.toNat - l.made)

end SendLoop

structure Sender (α : Type) where
  attached : Option (SendLoop α)
  /-- Loops that were released, oldest first. -/
  detached : List (SendLoop α)

/-- What may be done to a sender. -/
inductive SenderCommand (α : Type) where
  | start (payload : α)
  /-- Stops the attached loop. -/
  | close
  /-- Releases the attached loop. -/
  | detach
deriving DecidableEq

namespace Sender

variable {α : Type}

def idle : Sender α := ⟨none, []⟩

instance : Inhabited (Sender α) := ⟨idle⟩

/-- A command carried out at `now`. Without an executor a start only closes. -/
def apply (executor : Bool) (now : Nat) (s : Sender α) : SenderCommand α → Sender α
  | .start payload =>
    { s with attached := if executor then some (.start payload now) else none }
  | .close => { s with attached := none }
  | .detach => { attached := none, detached := s.detached ++ s.attached.toList }

/-- Whether a loop is attached and has attempts to make. -/
def isRunning (s : Sender α) : Bool := s.attached.isSome

/-- When the next loop goes on. -/
def nextDue (s : Sender α) : Option Nat :=
  (s.detached ++ s.attached.toList).foldl
    (fun due l => some (match due with | some d => min d l.due | none => l.due)) none

/-- Sends what is due by `limit`, in the order of time; at one moment, released
loops first. -/
def run (policy : ResendPolicy) (limit : Nat) (s : Sender α) : Sender α × List (Attempt α) :=
  let released := s.detached.map (SendLoop.run policy limit)
  let own := s.attached.map (SendLoop.run policy limit)
  let sent := released.flatMap (·.2) ++ (own.map (·.2)).getD []
  (⟨own.bind (·.1), released.filterMap (·.1)⟩, sent.mergeSort fun a b => a.time ≤ b.time)

end Sender

end StakeConsensus
