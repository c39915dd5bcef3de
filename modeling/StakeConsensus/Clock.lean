import StakeConsensus.Arithmetic.Checked

/-!
# The clock of a local network

Unix seconds, counted on from the reading at the beginning of the run.
-/

namespace StakeConsensus

/-- The largest reading. -/
def maxTime : Int := halfWord - 1

structure Clock where
  /-- The reading at moment zero. -/
  start : Int
deriving DecidableEq, Inhabited

/-- The reading at a moment in milliseconds. -/
def Clock.read (c : Clock) (moment : Nat) : Int :=
  min (c.start + min ((moment / 1000 : Nat) : Int) maxTime) maxTime

end StakeConsensus
