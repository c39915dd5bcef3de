import StakeConsensus.Chain.Basic
import StakeConsensus.Report.Basic

/-!
# Reports of blocks and states

Of the signatures of a header only the signers are written. A sealed header is
written as what sealing adds: hash, signers and nonce.
-/

namespace StakeConsensus

instance : ToJson Signature :=
  ⟨fun s => .object [("pk", toJson s.publicKey), ("sig", .ofBytes s.bytes)]⟩

instance : ToJson Transaction :=
  ⟨fun t => .object [("from", toJson t.sender), ("to", toJson t.receiver),
    ("amount", toJson t.amount), ("nonce", toJson t.nonce), ("gas", toJson t.gas)]⟩

instance : ToJson Receipt :=
  ⟨fun r => .array [toJson r.txCode, toJson r.success, toJson r.gasUsed]⟩

def Header.signers (h : Header) : List Address := h.signatures.map Signature.signer

instance : ToJson Header :=
  ⟨fun h => .object [("hash", toJson h.hash), ("height", toJson h.height),
    ("parent", toJson h.parent), ("time", toJson h.time), ("leader", toJson h.leader),
    ("state_root", toJson h.stateRoot), ("tx_root", toJson h.txRoot),
    ("receipt_root", toJson h.receiptRoot), ("bloom", toJson h.bloom),
    ("gas_limit", toJson h.gasLimit), ("gas_used", toJson h.gasUsed),
    ("version", toJson h.version), ("vrf", .ofBytes h.vrf), ("topology", toJson h.topology),
    ("elect", toJson h.elect), ("turn", toJson h.turn), ("signers", toJson h.signers),
    ("nonce", toJson h.nonce)]⟩

/-- The report of a sealed header. -/
def Header.sealJson (h : Header) : Json :=
  .object [("hash", toJson h.hash), ("signers", toJson h.signers), ("nonce", toJson h.nonce)]

/-- The report of transactions by their codes. -/
def Transaction.codesJson (ts : List Transaction) : Json := toJson (ts.map Transaction.code)

instance : ToJson ChainState :=
  ⟨fun s => .object [("root", toJson s.root),
    ("accounts", .array (s.accounts.toList.map fun e =>
      .array [toJson e.1, toJson e.2.balance, toJson e.2.nonce])),
    ("uptime", toJson s.uptime.toList), ("matrix", toJson s.matrix)]⟩

instance : Failure TransferError where
  kind
    | .insufficientBalance _ _ => "InsufficientBalance"
    | .nonceMismatch _ _ => "NonceMismatch"
  message := TransferError.message

end StakeConsensus
