import StakeConsensus.Decimal.Shortest
import StakeConsensus.Message

/-!
# Metrics of a node

Counters and a gauge that follow the events of one validator, and the text in which
they are read: for each metric a line of help, one of its type and one of its value,
in the order of the names.
-/

namespace StakeConsensus

structure Metrics where
  /-- Heights that reached a quorum. -/
  finalized : Nat
  /-- Proposals that do not agree with the local state. -/
  failures : Nat
  /-- Reelections that were confirmed. -/
  reelections : Nat
  /-- The height of the last committed block, up to the largest signed word. -/
  height : Nat
deriving DecidableEq, Inhabited

namespace Metrics

def zero : Metrics := ⟨0, 0, 0, 0⟩

def record (m : Metrics) : Event → Metrics
  | .finished _ => { m with finalized := m.finalized + 1 }
  | .stateFailure _ => { m with failures := m.failures + 1 }
  | .leaderChanged n =>
    if n.confirmed && 0 < n.turn.used then { m with reelections := m.reelections + 1 } else m
  | .committed height _ _ => { m with height := min height.toNat (wordSize / 2 - 1) }

/-- A metric as it is written. -/
structure Entry where
  name : String
  help : String
  type : String
  value : Nat

def Entry.text (e : Entry) : String :=
  "# HELP " ++ e.name ++ " " ++ e.help ++ "\n# TYPE " ++ e.name ++ " " ++ e.type ++ "\n"
    ++ e.name ++ " " ++ Decimal.ofCount e.value ++ "\n"

/-- All metrics in the order of their names. -/
def entries (m : Metrics) : List Entry :=
  [⟨"strata_current_height", "Height of the latest committed block", "gauge", m.height⟩,
    ⟨"strata_heights_finalized_total", "Heights finalized by a stake quorum", "counter",
      m.finalized⟩,
    ⟨"strata_reelections_total", "Confirmed leader reelections", "counter", m.reelections⟩,
    ⟨"strata_state_failures_total", "Proposals that failed local re-execution", "counter",
      m.failures⟩]

def text (m : Metrics) : String := String.join (m.entries.map Entry.text)

end Metrics

end StakeConsensus
