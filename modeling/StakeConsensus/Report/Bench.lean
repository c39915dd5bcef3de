import StakeConsensus.Bench.Basic
import StakeConsensus.Report.Message

/-!
# Reports of the bench
-/

namespace StakeConsensus

instance : ToJson Draft :=
  ⟨fun d => .object [("header", toJson d.header), ("codes", toJson d.codes),
    ("receipts", toJson d.receipts)]⟩

instance : ToJson Block :=
  ⟨fun b => .object [("header", toJson b.header), ("txs", toJson b.txs)]⟩

instance : ToJson (Reexecuted ChainState) :=
  ⟨fun r => .object [("hash", toJson r.block.hash), ("receipts", toJson r.receipts),
    ("state", toJson r.state)]⟩

/-- The fields that tell where a chain ends. -/
def Chain.headFields (c : Chain) : List (String × Json) :=
  [("height", toJson c.height), ("head", c.head.header.sealJson), ("txs", toJson c.head.txs.length)]

/-- What a schedule says about an account. -/
def LeaderSchedule.contextJson (s : LeaderSchedule) (account : Address) : Json :=
  .object [("role", toJson (s.roleOf account)), ("validators", toJson s.validators),
    ("turn", toJson s.turn)]

/-- The report of the subject, with the calls made so far. -/
def Bench.subjectJson (b : Bench) : List (String × Json) :=
  let counts := [("signs", toJson b.activity.signings), ("fetches", toJson b.activity.fetches)]
  match b.subject with
  | .chainOnly => []
  | .process h m => ("p", toJson (m.process? h)) :: counts
  | .manager m =>
    let heights := b.touched.filter (m.height ≤ ·)
    let processes := heights.filterMap fun h =>
      (m.process? h).map fun p => (toString h, toJson p)
    ("m", .object [("current", toJson m.height), ("len", toJson m.stations.size),
      ("empty", toJson (m.stations.size == 0)), ("at", .object processes)]) :: counts
  | .verifier v =>
    ("v", .object [("open", toJson v.isOpen), ("done", toJson v.stopped)]) :: counts

/-- The report of a step: what it returned, what happened, and what it left. -/
def Bench.stepJson (b : Bench) (result : Json) : Json :=
  let events := b.activity.events
  let sent := b.activity.sent.mergeSort Outbound.precedes
  .object ([("r", result)]
    ++ (if events.isEmpty then [] else [("ev", toJson events)])
    ++ (if sent.isEmpty then [] else [("sent", toJson sent)])
    ++ b.subjectJson)

end StakeConsensus
