import StakeConsensus.Bytes.Encoding
import StakeConsensus.Crypto.Blake3
import StakeConsensus.Merkle

/-!
# Receipts

What executing one transaction came to. A block commits to its receipts by their
Merkle root, and to the successful ones also by a bloom of 256 bits, one bit per
transaction code.
-/

namespace StakeConsensus

structure Receipt where
  txCode : Digest
  success : Bool
  gasUsed : UInt64
deriving DecidableEq, Inhabited

/-- 256 bits, the lowest of each byte first. -/
abbrev Bloom := FixedBytes 32

namespace Bloom

/-- The bit of a transaction code: the first two bytes of its digest. -/
def position (code : Digest) : Nat :=
  match (blake3 code.toList).toList with
  | lo :: hi :: _ => (lo.toNat + 256 * hi.toNat) % 256
  | _ => 0

def insert (b : Bloom) (i : Nat) : Bloom :=
  b.modify (i / 8) (· ||| (1 <<< (i % 8).toUInt8))

def testBit (b : Bloom) (i : Nat) : Bool :=
  ((b.toList[i / 8]?.getD 0) >>> (i % 8).toUInt8) &&& 1 == 1

end Bloom

namespace Receipt

def encode (r : Receipt) : Bytes :=
  r.txCode.toList ++ Encoding.bool r.success ++ Encoding.u64 r.gasUsed

def digest (r : Receipt) : Digest := blake3 r.encode

def root (rs : List Receipt) : Digest := Merkle.root (rs.map digest)

/-- The bits of the successful receipts. -/
def bloom (rs : List Receipt) : Bloom :=
  (rs.filter (·.success)).foldl (fun b r => b.insert (Bloom.position r.txCode)) .zero

end Receipt

end StakeConsensus
