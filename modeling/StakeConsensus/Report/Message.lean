import StakeConsensus.Report.Proposal
import StakeConsensus.Station

/-!
# Reports of messages, events and processes
-/

namespace StakeConsensus

instance : ToJson Event :=
  ⟨fun
    | .leaderChanged n => .object [("e", .string "leader"), ("notice", toJson n)]
    | .finished n => .object [("e", .string "finished"), ("height", toJson n.height),
        ("header", n.header.sealJson), ("turn", toJson n.turn), ("codes", toJson n.codes),
        ("verified", toJson n.verified)]
    | .stateFailure a => .object [("e", .string "failure"), ("height", toJson a.height),
        ("hash", toJson a.hash), ("leader", toJson a.leader), ("reason", toJson a.reason)]
    | .committed height hash count => .object [("e", .string "committed"),
        ("height", toJson height), ("hash", toJson hash), ("txs", toJson count)]⟩

/-- What a message says, next to its kind and height. -/
def Message.details : Message → List (String × Json)
  | request r => [("hash", toJson r.hash), ("codes", toJson r.codes), ("turn", toJson r.turn),
      ("from", toJson r.sender)]
  | vote v => [("hash", toJson v.hash), ("from", toJson v.sender),
      ("sig", .ofBytes v.signature.bytes)]
  | recovery m => [("header", m.header.sealJson), ("from", toJson m.sender)]
  | mining m => [("header", m.header.sealJson), ("txs", Transaction.codesJson m.txs)]
  | posed p => [("header", p.header.sealJson), ("codes", toJson p.codes), ("turn", toJson p.turn),
      ("origin", toJson p.origin), ("sig", .ofBytes p.signature.bytes)]

instance : ToJson Outbound :=
  ⟨fun o => .object ([("at", toJson o.time), ("roles", toJson o.roles),
    ("kind", .string o.message.kind.display), ("height", toJson o.message.height)]
      ++ o.message.details)⟩

/-- The order of a report: by time, by kind, by height. -/
def Outbound.precedes (a b : Outbound) : Bool :=
  if a.time ≠ b.time then a.time < b.time
  else if a.message.kind ≠ b.message.kind then a.message.kind.display < b.message.kind.display
  else a.message.height ≤ b.message.height

def Phase.display : Phase → String
  | idle => "Idle"
  | waiting => "Start"
  | checking => "ReqVerify"
  | executing => "TxsVerify"
  | voting => "DposVerify"
  | final => "End"

/-- A process is written as its phase, the votes it has parked, and what it knows of
the proposal that it is processing. -/
instance {σ : Type} : ToJson (Verification σ) :=
  ⟨fun p => .object [("state", toJson p.phase.display), ("parked", toJson p.parked.size),
    ("current", toJson p.currentHash),
    ("verdict", toJson (p.currentHash.bind (p.verdict? .ascending))),
    ("votes", toJson (p.currentHash.map (p.votes .ascending)))]⟩

end StakeConsensus
