import StakeConsensus.Proposal.Cache
import StakeConsensus.Report.Verdict
import StakeConsensus.Vote.Parked

/-!
# Reports of votes and proposals

A vote is written as its signer and weight, a parked one as its height and sender.
-/

namespace StakeConsensus

instance : ToJson Vote := ⟨fun v => toJson (v.signer, v.weight)⟩
instance : ToJson VoteMessage := ⟨fun v => toJson (v.height, v.sender)⟩
instance : ToJson ProposalKey := ⟨fun k => toJson (k.leader, k.turn)⟩

instance {σ : Type} : ToJson (Proposal σ) :=
  ⟨fun p => .object [("hash", toJson p.hash), ("local", toJson p.isLocal),
    ("origin", toJson p.origin), ("height", toJson p.header.height),
    ("parent", toJson p.header.parent), ("turn", toJson p.turn), ("finished", toJson p.finished)]⟩

instance : ToJson CacheInsert :=
  ⟨fun
    | .inserted => .string "Inserted"
    | .replaced => .string "Replaced"
    | .duplicate => .string "Duplicate"
    | .rejected => .string "Rejected"
    | .conflict => .string "Conflict"
    | .full => .string "Full"⟩

end StakeConsensus
