import StakeConsensus.Manager

/-!
# The verifier of a node

A verifier passes inputs from a bounded inbox to its manager, until it is told to
stop, or nobody is left to tell it, or the inbox is closed. Then all its processes
are closed.
-/

namespace StakeConsensus

structure Verifier (σ : Type) where
  manager : Manager σ
  /-- Inputs that wait, oldest first. -/
  inbox : List VerifierInput
  capacity : Nat
  /-- Whether somebody may still put something into the inbox. -/
  fed : Bool
  /-- Whether it was told to stop. -/
  stopping : Bool
  /-- Whether somebody may still tell it to stop. -/
  watched : Bool
  stopped : Bool

namespace Verifier

variable {σ : Type}

def new (manager : Manager σ) (capacity : Nat) : Verifier σ where
  manager
  inbox := []
  capacity
  fed := true
  stopping := false
  watched := true
  stopped := false

/-- Whether inputs can be put into the inbox. -/
def isOpen (v : Verifier σ) : Bool := v.fed && !v.stopped

/-- Puts an input into the inbox, and says whether there was room for it. -/
def offer (v : Verifier σ) (i : VerifierInput) : Verifier σ × Bool :=
  if v.isOpen && decide (v.inbox.length < v.capacity) then
    ({ v with inbox := v.inbox ++ [i] }, true)
  else (v, false)

/-- Puts an input into the inbox as soon as there is room. -/
def push (v : Verifier σ) (i : VerifierInput) : Verifier σ :=
  if v.isOpen then { v with inbox := v.inbox ++ [i] } else v

/-- Takes back the access to the inbox. -/
def hangUp (v : Verifier σ) : Verifier σ := { v with fed := false }

/-- Tells the verifier to stop, or to go on, and says whether it is there to hear. -/
def signal (v : Verifier σ) (stop : Bool) : Verifier σ × Bool :=
  if v.stopped || !v.watched then (v, false) else ({ v with stopping := stop }, true)

/-- Gives up telling the verifier to stop. -/
def unwatch (v : Verifier σ) : Verifier σ := { v with watched := false }

/-- Closes all processes. -/
def stop (e : Surroundings σ) (now : Nat) (v : Verifier σ × Activity) : Verifier σ × Activity :=
  let (manager, activity) := Manager.closeAll e now (v.1.manager, v.2)
  ({ v.1 with manager, inbox := [], stopped := true }, activity)

/-- Handles what waits in the inbox, and stops if there is a reason to. -/
def settle (e : Surroundings σ) (now : Nat) (v : Verifier σ × Activity) : Verifier σ × Activity :=
  if v.1.stopped then v
  else if v.1.stopping then stop e now v
  else
    let (manager, activity) :=
      v.1.inbox.foldl (fun m i => Manager.handle e now i m) (v.1.manager, v.2)
    let v := ({ v.1 with manager, inbox := [] }, activity)
    if v.1.fed && v.1.watched then v else stop e now v

end Verifier

end StakeConsensus
