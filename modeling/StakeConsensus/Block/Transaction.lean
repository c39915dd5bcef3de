import StakeConsensus.Bytes.Encoding
import StakeConsensus.Crypto.Blake3
import StakeConsensus.Merkle

/-!
# Transactions

A transfer between two accounts. Proposals refer to a transaction by its code,
the digest of its encoding.
-/

namespace StakeConsensus

structure Transaction where
  sender : Address
  receiver : Address
  amount : UInt64
  nonce : UInt64
  gas : UInt64
deriving DecidableEq, Inhabited

namespace Transaction

def encode (t : Transaction) : Bytes :=
  t.sender.toList ++ t.receiver.toList ++ Encoding.u64 t.amount ++ Encoding.u64 t.nonce
    ++ Encoding.u64 t.gas

def code (t : Transaction) : Digest := blake3 t.encode

/-- The Merkle root over the codes, in block order. -/
def root (txs : List Transaction) : Digest := Merkle.root (txs.map code)

end Transaction

end StakeConsensus
