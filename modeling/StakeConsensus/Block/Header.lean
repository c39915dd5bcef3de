import StakeConsensus.Crypto.Key
import StakeConsensus.Turn

/-!
# Block headers

Validators vote on the hash of a header. It covers every field except the
signatures, which the votes become, and the nonce, which is filled in after
them.
-/

namespace StakeConsensus

/-- The version that leaders stamp into headers, and the only one accepted. -/
def protocolVersion : String := "1.0.0"

structure Header where
  /-- The height of the block; the genesis block has height zero. -/
  height : UInt64
  parent : Digest
  /-- Seconds since the epoch. -/
  time : Int64
  leader : Address
  stateRoot : Digest
  txRoot : Digest
  receiptRoot : Digest
  bloom : FixedBytes 32
  gasLimit : UInt64
  gasUsed : UInt64
  version : String
  vrf : Bytes
  /-- The validators the leader observed. -/
  topology : List Address
  /-- Election results carried by the block. -/
  elect : List Address
  turn : ConsensusTurn
  signatures : List Signature
  nonce : UInt64
deriving DecidableEq, Inhabited

/-- A part of the header that execution determines; `other` stands for the rest. -/
inductive HeaderField where
  | stateRoot
  | txRoot
  | receiptRoot
  | bloom
  | gasUsed
  | other
deriving DecidableEq, Inhabited

namespace HeaderField

def display : HeaderField → String
  | stateRoot => "state_root"
  | txRoot => "tx_root"
  | receiptRoot => "receipt_root"
  | bloom => "bloom"
  | gasUsed => "gas_used"
  | other => "other"

end HeaderField

namespace Header

/-- All fields zero or empty. -/
def blank : Header where
  height := 0
  parent := .zero
  time := 0
  leader := .zero
  stateRoot := .zero
  txRoot := .zero
  receiptRoot := .zero
  bloom := .zero
  gasLimit := 0
  gasUsed := 0
  version := ""
  vrf := []
  topology := []
  elect := []
  turn := .first
  signatures := []
  nonce := 0

/-- The hashed fields; signatures and nonce are left out. -/
def encode (h : Header) : Bytes :=
  Encoding.u64 h.height ++ h.parent.toList ++ Encoding.i64 h.time ++ h.leader.toList
    ++ h.stateRoot.toList ++ h.txRoot.toList ++ h.receiptRoot.toList ++ h.bloom.toList
    ++ Encoding.u64 h.gasLimit ++ Encoding.u64 h.gasUsed ++ Encoding.string h.version
    ++ Encoding.bytes h.vrf ++ Encoding.list FixedBytes.toList h.topology
    ++ Encoding.list FixedBytes.toList h.elect ++ h.turn.encode

/-- The hash that is voted on. -/
def hash (h : Header) : Digest := blake3 h.encode

/-- The execution results in which two headers differ, in header order. If the
hashes differ for another reason, that is all there is to say. -/
def mismatches (a b : Header) : List HeaderField :=
  let fields :=
    (if a.stateRoot ≠ b.stateRoot then [HeaderField.stateRoot] else [])
      ++ (if a.txRoot ≠ b.txRoot then [.txRoot] else [])
      ++ (if a.receiptRoot ≠ b.receiptRoot then [.receiptRoot] else [])
      ++ (if a.bloom ≠ b.bloom then [.bloom] else [])
      ++ (if a.gasUsed ≠ b.gasUsed then [.gasUsed] else [])
  if fields.isEmpty && a.hash != b.hash then [.other] else fields

@[simp] theorem hash_signatures (h : Header) (s : List Signature) :
    { h with signatures := s }.hash = h.hash := rfl

@[simp] theorem hash_nonce (h : Header) (n : UInt64) : { h with nonce := n }.hash = h.hash := rfl

end Header

end StakeConsensus
